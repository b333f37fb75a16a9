import TagsFile.Proofs.Passage

/-!
# The scopes around declarations

Scopes lie in layers: the parts of a namespace's name, the namespace, and a type in it. A type is
left where it ends, and so are the braces of a namespace; only the heading of a namespace leaves
other scopes behind, and all of them are namespaces.

## Main definitions

* `ScopeStack.IsLayered`: the scopes that there can be around a declaration.
* `Extraction.MeetsNamespace`: a namespace begins between two items.

## Main statements

* `Extraction.run_keeps_layers`: the scopes around all declarations, and those that are left.
-/

namespace TagsFile

open Declaration

namespace ScopeStack

/-- Whether all scopes are namespaces. -/
def IsOuter (s : ScopeStack) : Prop := ∀ f ∈ s, f.kind = .namespaceScope

/-- Parts of a namespace's name without a pattern, then at most one namespace with a pattern, then
at most one type with a pattern. -/
structure IsLayered (s : ScopeStack) (segments : ScopeStack) (named type : Option ScopeFrame) :
    Prop where
  eq : s = segments ++ named.toList ++ type.toList
  segments : ∀ f ∈ segments, f.kind = .namespaceScope ∧ f.pattern = none
  named : ∀ f ∈ named, f.kind = .namespaceScope ∧ f.pattern.isSome = true
  type : ∀ f ∈ type, (f.kind = .classScope ∨ f.kind = .interfaceScope) ∧ f.pattern.isSome = true

theorem isLayered_nil : IsLayered [] [] none none := ⟨rfl, nofun, nofun, nofun⟩

variable {s segments : ScopeStack} {named : Option ScopeFrame} {frame : ScopeFrame}

/-- A namespace inside the parts of its name. -/
theorem isLayered_named (hsegments : ∀ f ∈ segments, isSegment f)
    (hkind : frame.kind = .namespaceScope) (hpattern : frame.pattern.isSome = true) :
    IsLayered (segments ++ [frame]) segments (some frame) none :=
  ⟨by simp, hsegments, by rintro _ ⟨⟩; exact ⟨hkind, hpattern⟩, nofun⟩

/-- A type inside namespaces. -/
theorem IsLayered.enterType (h : IsLayered s segments named none)
    (hkind : frame.kind ≠ .namespaceScope) (hpattern : frame.pattern.isSome = true) :
    IsLayered (s ++ [frame]) segments named (some frame) where
  eq := by simp [h.eq]
  segments := h.segments
  named := h.named
  type := by
    rintro _ ⟨⟩
    refine ⟨?_, hpattern⟩
    cases hf : frame.kind with
    | namespaceScope => exact absurd hf hkind
    | classScope => exact .inl rfl
    | interfaceScope => exact .inr rfl

end ScopeStack

open ScopeStack

/-! ## The scopes around declarations -/

namespace Declaration

theorem Opens.pattern_isSome {scopes : ScopeStack} {frame : ScopeFrame} {d : Declaration}
    (h : d.Opens scopes frame) : frame.pattern.isSome = true := by
  obtain ⟨kind, -, rfl⟩ := Option.map_eq_some_iff.1 h.frame
  rfl

variable {scopes segments : ScopeStack} {named : Option ScopeFrame} {ds : List Declaration}

theorem Grouped.layered (h : Grouped scopes ds) (hscopes : IsLayered scopes segments named none) :
    ∀ d ∈ ds, ∃ segments named type, IsLayered d.scopes segments named type := by
  induction h with
  | nil => exact nofun
  | plain hd _ ih =>
    intro d' hd'
    obtain rfl | hd' := List.mem_cons.1 hd'
    · exact ⟨segments, named, none, hd.scopes ▸ hscopes⟩
    · exact ih d' hd'
  | type hd hkind hmembers _ ih =>
    intro d' hd'
    obtain rfl | hd' := List.mem_cons.1 hd'
    · exact ⟨segments, named, none, hd.scopes ▸ hscopes⟩
    · obtain hd' | hd' := List.mem_append.1 hd'
      · have hinner := hscopes.enterType hkind hd.pattern_isSome
        exact ⟨_, _, _, (hmembers d' hd').scopes ▸ hinner⟩
      · exact ih d' hd'

theorem Arranged.layered (h : Arranged scopes ds) (hscopes : IsLayered scopes segments named none) :
    ∀ d ∈ ds, ∃ segments named type, IsLayered d.scopes segments named type := by
  induction h generalizing segments named with
  | done hds => exact hds.layered hscopes
  | unnamed hds hbody _ ih =>
    intro d hd
    simp only [List.mem_append] at hd
    obtain hd | hd | hd := hd
    · exact hds.layered hscopes d hd
    · exact hbody.layered isLayered_nil d hd
    · exact ih isLayered_nil d hd
  | @named scopes segments' next ds body rest opener frame hds hsegments hopener hkind hbody hnext
      _ ih =>
    have hinner := isLayered_named hsegments hkind hopener.pattern_isSome
    intro d hd
    simp only [List.mem_append, List.mem_cons] at hd
    obtain hd | rfl | hd | hd := hd
    · exact hds.layered hscopes d hd
    · exact ⟨segments', none, none, by simp [hopener.scopes], hsegments, nofun, nofun⟩
    · exact hbody.layered hinner d hd
    · -- behind its braces, nothing of the namespace is left
      rcases hnext with rfl | rfl
      · exact ih hinner d hd
      · exact ih isLayered_nil d hd

end Declaration

/-! ## The scopes that are left -/

namespace Extraction

variable {e : Extraction}

theorem scopes_line (e : Extraction) : e.line.2.scopes = e.scopes := by
  unfold line
  split <;> rfl

theorem scopes_function (access : Option Text) (e : Extraction) :
    (e.function access).scopes = e.scopes := by
  rw [function]
  dsimp only
  split <;> exact scopes_line e

theorem scopes_named (kind : TagKind) (e : Extraction) :
    (e.named kind).2.2.scopes = e.scopes := by
  rw [named]
  dsimp only
  split <;> exact scopes_line e

theorem scopes_constant (e : Extraction) : e.constant.scopes = e.scopes := scopes_named _ e

theorem scopes_visible (e : Extraction) : e.visible.scopes = e.scopes := by
  obtain ⟨_, hadds, -⟩ := visible_adds e
  exact hadds.scopes

/-- The scope that a type opens is left again, wherever the tokens end. -/
theorem scopes_type (kind : TagKind) (scope : ScopeKind) (skipsBlocks : Bool) (e : Extraction) :
    (e.type kind scope skipsBlocks).scopes = e.scopes := by
  rw [type]
  dsimp only
  split
  · obtain ⟨_, hadds, -⟩ := anonymousBody_adds (e.named kind).2.2
    rw [hadds.scopes, scopes_named]
  · rename_i name hname
    obtain ⟨inner, hinner⟩ : ∃ inner, inner =
        ((e.named kind).2.2.enter ⟨scope, name, some (e.named kind).2.1⟩).toBody := ⟨_, rfl⟩
    have hscopes : inner.2.scopes = e.scopes ++ [⟨scope, name, some (e.named kind).2.1⟩] := by
      rw [hinner, ← scopes_named kind e]
      rfl
    obtain ⟨_, hadds, -⟩ := members_adds skipsBlocks inner.2
    rw [← hinner, scopes_leave]
    split
    · rw [hadds.scopes, hscopes, List.dropLast_concat]
    · rw [hscopes, List.dropLast_concat]

theorem scopes_declaration (t : Token) (e : Extraction) :
    (e.declaration t).scopes = e.scopes := by
  rw [declaration]
  split
  · exact scopes_type ..
  · exact scopes_type ..
  · exact scopes_function none e
  · exact scopes_constant e
  · rfl

theorem scopes_namespaceBody (depth : Nat) (e : Extraction) :
    (e.namespaceBody depth).scopes = e.scopes := by
  obtain ⟨_, hadds, -⟩ := namespaceBody_adds depth e
  exact hadds.scopes

theorem isOuter_enter {frame : ScopeFrame} (h : e.scopes.IsOuter)
    (hkind : frame.kind = .namespaceScope) : (e.enter frame).scopes.IsOuter := by
  intro f hf
  obtain hf | hf := List.mem_append.1 hf
  · exact h f hf
  · obtain rfl := List.mem_singleton.1 hf
    exact hkind

theorem isOuter_enterNamespace (last? : Option (Text × Int)) (h : e.scopes.IsOuter) :
    (e.enterNamespace last?).scopes.IsOuter := by
  cases last? with
  | none => exact h
  | some last => exact isOuter_enter (e := e.stopCollect.declare ..) h rfl

/-- However much of the heading of a namespace there is, it leaves only namespaces. -/
theorem isOuter_namespaceHeading (outer : Nat) (last? : Option (Text × Int))
    (h : e.scopes.IsOuter) : (e.namespaceHeading outer last?).scopes.IsOuter := by
  fun_induction namespaceHeading outer last? e with
  | case1 => exact h
  | case2 last? e t ts hrest _ ih | case6 last? e t ts hrest _ _ _ _ ih => exact ih h
  | case3 last? e t ts hrest _ _ ih =>
    refine ih ?_
    cases last? with
    | none => exact h
    | some last => exact isOuter_enter (e := e.advance) h rfl
  | case4 last? e =>
    have hbody := isOuter_enterNamespace last? (e := e.advance) h
    rw [leaveTo_eq, scopes_namespaceBody]
    exact fun f hf => hbody f (List.mem_of_mem_take hf)
  | case5 last? e => exact isOuter_enterNamespace last? (e := e.advance) h

/-! ## Whole sources -/

theorem isOuter_item {t : Token} (hkind : t.kind = .namespaceWord) (e : Extraction) :
    (e.item t).scopes.IsOuter := by
  rw [item, if_pos hkind]
  exact isOuter_namespaceHeading _ _ (e := { e with scopes := [] }.startCollect)
    fun _ hf => absurd hf List.not_mem_nil

theorem scopes_item {t : Token} (hkind : t.kind ≠ .namespaceWord) (e : Extraction) :
    (e.item t).scopes = e.scopes := by
  rw [item, if_neg hkind, scopes_declaration]

/-- Once all scopes are namespaces, they stay so. -/
theorem isOuter_items (h : e.scopes.IsOuter) : e.items.scopes.IsOuter := by
  fun_induction items e with
  | case1 => exact h
  | case2 e t ts hrest ih =>
    refine ih ?_
    by_cases hkind : t.kind = .namespaceWord
    · exact isOuter_item hkind e
    · exact (scopes_item hkind e).symm ▸ h

/-- Whether an extraction comes to a namespace between two items. -/
def MeetsNamespace (e : Extraction) : Prop :=
  ∃ e' t ts, Arrives e e' ∧ e'.cursor.rest = t :: ts ∧ t.kind = .namespaceWord

theorem isOuter_of_meetsNamespace (h : e.MeetsNamespace) : e.items.scopes.IsOuter := by
  obtain ⟨e', t, ts, harrives, hrest, hkind⟩ := h
  rw [(harrives.next hrest).items_eq]
  exact isOuter_items (isOuter_item hkind e')

theorem scopes_items (h : ¬e.MeetsNamespace) : e.items.scopes = e.scopes := by
  fun_induction items e with
  | case1 => rfl
  | case2 e t ts hrest ih =>
    have hkind : t.kind ≠ .namespaceWord := fun hkind => h ⟨e, t, ts, .start, hrest, hkind⟩
    refine (ih ?_).trans (scopes_item hkind e)
    rintro ⟨e', t', ts', harrives, hrest', hkind'⟩
    exact h ⟨e', t', ts', (Arrives.start.next hrest).trans harrives, hrest', hkind'⟩

/-- Around every declaration of a source the scopes are layered, and at its end there are only
namespaces. From any scopes on, a declaration and the body of a namespace leave the scopes as they
were, so that these stay to the end if no namespace comes between two items; after one there are
only namespaces. -/
theorem run_keeps_layers (tokens : List Token) :
    (∀ d ∈ (run tokens []).declarations,
      ∃ segments named type, IsLayered d.scopes segments named type) ∧
    (run tokens []).scopes.IsOuter ∧
    (∀ e : Extraction,
      (e.type .interfaceDecl .interfaceScope false).scopes = e.scopes ∧
      (e.type .classDecl .classScope true).scopes = e.scopes ∧
      (∀ access, (e.function access).scopes = e.scopes) ∧
      e.constant.scopes = e.scopes ∧ e.visible.scopes = e.scopes ∧
      (e.namespaceBody 0).scopes = e.scopes) ∧
    ∀ scopes : ScopeStack,
      ¬MeetsNamespace { cursor := { rest := tokens }, scopes } ∧
        (run tokens scopes).scopes = scopes ∨
      MeetsNamespace { cursor := { rest := tokens }, scopes } ∧
        (run tokens scopes).scopes.IsOuter := by
  refine ⟨?_, ?_, ?_, ?_⟩
  · exact (arranged_run tokens []).layered isLayered_nil
  · exact isOuter_items (e := { cursor := { rest := tokens } }) nofun
  · exact fun e => ⟨scopes_type .., scopes_type .., fun access => scopes_function access e,
      scopes_constant e, scopes_visible e, scopes_namespaceBody 0 e⟩
  · intro scopes
    by_cases hmeets : MeetsNamespace { cursor := { rest := tokens }, scopes }
    · exact .inr ⟨hmeets, isOuter_of_meetsNamespace hmeets⟩
    · exact .inl ⟨hmeets, scopes_items hmeets⟩

end Extraction
end TagsFile
