import TagsFile.Cache.Store
import TagsFile.Proofs.JsonText
import TagsFile.Proofs.Locate

/-!
# Where the entries of a store are

A source that is known by its location has its entry below the root of the store, under the names of
the location, the last of which gets an ending. No two sources share an entry.

## Main definitions

* `Location.IsNamed`: the locations that canonical paths spell.
* `Location.text`: the canonical path of a location.
* `Store.entryNames`: the names of an entry below the root.
-/

namespace TagsFile

theorem Text.unpaired_of_fileBytes? {t : Text} {bytes : List UInt8}
    (h : t.fileBytes? = some bytes) : t.unpaired := by
  apply unpaired_of_forall
  intro c hc
  obtain ⟨front, rest, rfl⟩ := List.append_of_mem hc
  rw [← List.singleton_append, fileBytes?_append, fileBytes?_append, fileBytes?_singleton] at h
  have hsome : c.fileBytes? ≠ none := by
    intro hnone
    simp [hnone] at h
  rw [← Bool.not_eq_true, Json.isHighSurrogate, Bool.and_eq_true, decide_eq_true_iff,
    decide_eq_true_iff]
  cases c with
  | char c =>
    have hvalid : c.toNat < 0xD800 ∨ 0xDFFF < c.toNat ∧ c.toNat < 0x110000 := c.valid
    rw [CodePoint.toNat]
    omega
  | surrogate n =>
    have hn : 0x480 ≤ n.val ∧ n.val < 0x500 := by
      apply Decidable.byContradiction
      intro hn
      exact hsome (if_neg hn)
    rw [CodePoint.toNat]
    omega

/-- A string without slashes and NULs is a name, unless it is empty or one of the dots. -/
theorem Text.isName_ofString {s : String} (hchars : ∀ c ∈ s.toList, c ≠ '/' ∧ c ≠ '\x00')
    (hempty : s ≠ "") (hhere : s ≠ ".") (hup : s ≠ "..") : IsName s := by
  have hinj {t : String} (h : ofString s = ofString t) : s = t := by
    rw [← Option.some.injEq, ← toString?_ofString, ← toString?_ofString, h]
  refine { ne_empty := fun h => hempty (hinj h), no_slash := ?_, no_nul := ?_,
           spelled := asFileName?_ofString s, ne_here := fun h => hhere (hinj h),
           ne_up := fun h => hup (hinj h) }
  · intro hmem
    obtain ⟨c, hc, heq⟩ := List.mem_map.1 hmem
    exact (hchars c hc).1 (CodePoint.char.inj heq)
  · intro hmem
    obtain ⟨c, hc, heq⟩ := List.mem_map.1 hmem
    exact (hchars c hc).2 (CodePoint.char.inj heq)

namespace Path

variable {p : Path}

theorem anchorOf_text (h : p.IsSeparate) : anchorOf p.text = p.anchor := by
  obtain ⟨anchor, parts⟩ := p
  cases parts with
  | nil => cases anchor <;> rfl
  | cons part rest =>
    obtain ⟨hempty, hslash⟩ := h part (by simp)
    cases part with
    | nil => exact absurd rfl hempty
    | cons c part =>
      have hc : c ≠ .char '/' := fun hc => hslash (by simp [hc])
      rw [text_eq h (by simp)]
      cases rest <;> cases anchor <;>
        simp [anchorOf, anchorText, Text.ofString, Text.join_cons_cons, hc]

/-- A path is read off its text. -/
theorem ofText_text (h : p.IsSeparate) (hhere : ∀ part ∈ p.parts, part ≠ ".") :
    ofText p.text = p := by
  have hkeep : p.parts.filter (fun part : Text => part ≠ "" && part ≠ ".") = p.parts := by
    rw [List.filter_eq_self]
    intro part hpart
    rw [Bool.and_eq_true, decide_eq_true_iff, decide_eq_true_iff]
    exact ⟨(h part hpart).1, hhere part hpart⟩
  have hparts : (pieces p.text).filter (fun part : Text => part ≠ "" && part ≠ ".") = p.parts := by
    obtain ⟨anchor, parts⟩ := p
    by_cases hne : parts = []
    · subst hne
      cases anchor <;> decide
    · rw [pieces_text h hne, List.filter_append, hkeep]
      cases anchor <;> rfl
  rw [ofText, anchorOf_text h, hparts]

/-- A path that is read off a text is the same when it is read off its own. -/
theorem isSeparate_ofText (t : Text) : (ofText t).IsSeparate := by
  intro part hpart
  obtain ⟨hpiece, hkeep⟩ := List.mem_filter.1 hpart
  rw [Bool.and_eq_true, decide_eq_true_iff, decide_eq_true_iff] at hkeep
  exact ⟨hkeep.1, notMem_of_mem_splitAtEach part hpiece⟩

end Path

namespace Location

/-- Whether all names on the way are names in the spelling of the file system. -/
def IsNamed (loc : Location) : Prop := ∀ name ∈ loc, Text.IsName name

/-- The canonical path of a location. -/
def text (loc : Location) : Text := loc.path.text

variable {loc : Location}

theorem IsNamed.isProper (h : loc.IsNamed) : loc.path.IsProper :=
  fun name hname => (h name hname).toIsPart

theorem IsNamed.unpaired_text (h : loc.IsNamed) : loc.text.unpaired := by
  obtain ⟨bytes, hbytes, -⟩ := Text.asFileName?_eq_some.1 (Path.asFileName?_text h.isProper)
  exact Text.unpaired_of_fileBytes? hbytes

/-- The path of a location is read off its text. -/
theorem ofText_text (h : loc.IsNamed) : Path.ofText loc.text = loc.path :=
  Path.ofText_text h.isProper.isSeparate fun name hname => (h name hname).ne_here

end Location

namespace Store

/-- The names of the entry of a source below the root of a store. -/
def entryNames (loc : Location) : List Text := loc.dropLast ++ [loc.getLast?.getD "" ++ ".json"]

variable {loc loc' : Location}

theorem entryNames_ne_nil (loc : Location) : entryNames loc ≠ [] := by simp [entryNames]

/-- The name of an entry is a name. -/
theorem isLabel_append_json {name : Text} (h : .char '/' ∉ name) :
    Text.IsLabel (name ++ ".json") := by
  have hlength : name.length + 5 = (name ++ Text.ofString ".json").length := by
    simp [Text.ofString]
  have hne {other : Text} (hother : other.length < 5) : name ++ Text.ofString ".json" ≠ other := by
    rintro rfl
    omega
  refine ⟨hne (by decide), ?_, hne (by decide), hne (by decide)⟩
  rw [List.mem_append, not_or]
  exact ⟨h, by decide⟩

theorem isName_append_json {name : Text} (h : name = "" ∨ name.IsName) :
    Text.IsName (name ++ ".json") := by
  have hslash : CodePoint.char '/' ∉ name := by
    obtain rfl | h := h
    · decide
    · exact h.no_slash
  obtain ⟨hempty, hslash, hhere, hup⟩ := isLabel_append_json hslash
  refine ⟨⟨hempty, hslash, ?_, ?_⟩, hhere, hup⟩
  · rw [List.mem_append, not_or]
    refine ⟨?_, by decide⟩
    obtain rfl | h := h
    · decide
    · exact h.no_nul
  · apply Text.asFileName?_append _ (by decide) (Text.asFileName?_ofString "json")
    obtain rfl | h := h
    · exact Text.asFileName?_nil
    · exact h.spelled

theorem forall_mem_entryNames {P : Text → Prop} (h : ∀ name ∈ loc, P name)
    (hlast : P (loc.getLast?.getD "" ++ ".json")) : ∀ name ∈ entryNames loc, P name := by
  intro name hname
  obtain hname | hname := List.mem_append.1 hname
  · exact h name (List.dropLast_subset _ hname)
  · obtain rfl := List.mem_singleton.1 hname
    exact hlast

theorem isLabel_entryNames {parts : List Text} (h : ∀ part ∈ parts, Text.IsLabel part) :
    ∀ name ∈ entryNames parts, Text.IsLabel name := by
  apply forall_mem_entryNames h
  apply isLabel_append_json
  cases hlast : parts.getLast? with
  | none => exact List.not_mem_nil
  | some last => exact (h last (List.mem_of_getLast? hlast)).no_slash

theorem isName_entryNames (h : loc.IsNamed) : ∀ name ∈ entryNames loc, Text.IsName name := by
  apply forall_mem_entryNames h
  apply isName_append_json
  cases hlast : loc.getLast? with
  | none => exact .inl rfl
  | some last => exact .inr (h last (List.mem_of_getLast? hlast))

theorem ofText_of_isLabel {name : Text} (h : name.IsLabel) :
    Path.ofText name = ⟨.here, [name]⟩ := by
  have hseparate : (Path.mk .here [name]).IsSeparate := by
    intro part hpart
    obtain rfl := List.mem_singleton.1 hpart
    exact ⟨h.ne_empty, h.no_slash⟩
  have htext : (Path.mk .here [name]).text = name := by
    rw [Path.text_eq hseparate (by simp), Text.join_singleton]
    rfl
  rw [← htext, Path.ofText_text hseparate (by simpa using h.ne_here), htext]

/-- Each entry belongs to one source. -/
theorem entryNames_inj (h : loc.IsNamed) (h' : loc'.IsNamed)
    (heq : entryNames loc = entryNames loc') : loc = loc' := by
  obtain ⟨hfront, hlast⟩ := List.append_inj' heq rfl
  rw [List.cons.injEq, List.append_left_inj] at hlast
  have hname {name : Text} {loc : Location} (h : loc.IsNamed) (hmem : name ∈ loc) : "" ≠ name :=
    fun hempty => (h name hmem).ne_empty hempty.symm
  rcases List.eq_nil_or_concat loc with rfl | ⟨front, name, rfl⟩ <;>
    rcases List.eq_nil_or_concat loc' with rfl | ⟨front', name', rfl⟩
  · rfl
  · exact absurd (by simpa using hlast.1) (hname h' (by simp))
  · exact absurd (by simpa using hlast.1.symm) (hname h (by simp))
  · simp_all

/-- The entry of a source has the names of the source below the root. -/
theorem entryPath_text_path (s : Store) {p : Path} (h : ∀ part ∈ p.parts, Text.IsLabel part) :
    s.entryPath p.text = s.root.below (entryNames p.parts) := by
  have hname : Text.IsLabel (p.parts.getLast?.getD "" ++ ".json") :=
    isLabel_entryNames h _ (by simp [entryNames])
  have hrelative : (Path.ofText p.text).relative = ⟨.here, p.parts⟩ := by
    rw [Path.ofText_text (fun part hpart => ⟨(h part hpart).ne_empty, (h part hpart).no_slash⟩)
      fun part hpart => (h part hpart).ne_here]
    rfl
  simp only [entryPath, hrelative, Path.name, Path.child, ofText_of_isLabel hname]
  simp [Path.join, Path.isAbsolute, Path.parent, Path.below, entryNames]

theorem entryPath_text (s : Store) (h : loc.IsNamed) :
    s.entryPath loc.text = s.root.below (entryNames loc) :=
  entryPath_text_path s fun name hname => (h name hname).isLabel

end Store
end TagsFile
