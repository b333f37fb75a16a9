import TagsFile.Proofs.Frontier

/-!
# The walk with a stack is a descent

A tree is flattened with a stack of the nodes that are still to be visited. A node is tested when it
is taken from the stack, and by then all that stands before it in the tree has been covered. So the
walk does what a recursive descent from left to right does, on all trees, whatever their offsets.

## Main definitions

* `SyntaxTree.descend`: the recursive descent.
* `StackWalk`: a run of the loop over a stack, with the visits that it takes from it.

## Main statements

* `flatten_descends`: both give the same, and no node is taken from the stack twice.
-/

namespace TagsFile

namespace SyntaxTree

/-! ## Recursive descent -/

mutual

/-- Flattens a node and all below it. The node is passed over if it covers nothing or starts before
the end of what is covered when it is entered. -/
def descend (inString : Bool) (parent : Option String) (f : Flattening) : SyntaxTree → Flattening
  | .node type named start stop children =>
    if stop ≤ start ∨ start < f.position then f
    else if children.isEmpty || (atomicKind? type).isSome then
      f.emitLeaf ⟨type, named, inString, parent⟩ start.toNat stop.toNat
    else descendAll (inString || isStringNode type) (some type) f children

/-- Flattens nodes one after the other. -/
def descendAll (inString : Bool) (parent : Option String) (f : Flattening) :
    List SyntaxTree → Flattening
  | [] => f
  | t :: ts => descendAll inString parent (t.descend inString parent f) ts

end

end SyntaxTree

/-! ## The stack of a walk -/

theorem flatten_cons (v : Visit) (pending : List Visit) (f : Flattening) :
    flatten (v :: pending) f =
      if v.isSkipped f.position then flatten pending f
      else if v.isInner then flatten (v.inside ++ pending) f
      else flatten pending (f.emitLeaf v.leaf v.tree.start.toNat v.tree.stop.toNat) := by
  rw [flatten]

/-- What is deeper in a stack waits until all above it is done. -/
theorem flatten_append (visits pending : List Visit) (f : Flattening) :
    flatten (visits ++ pending) f = flatten pending (flatten visits f) := by
  fun_induction flatten visits f with
  | case1 f => rfl
  | case2 f v visits hskipped ih => rw [List.cons_append, flatten_cons, if_pos hskipped, ih]
  | case3 f v visits hskipped hinner ih =>
    rw [List.cons_append, flatten_cons, if_neg hskipped, if_pos hinner, ← ih, List.append_assoc]
  | case4 f v visits hskipped hinner ih =>
    rw [List.cons_append, flatten_cons, if_neg hskipped, if_neg hinner, ih]

mutual

theorem flatten_visit (inString : Bool) (parent : Option String) (f : Flattening) :
    (t : SyntaxTree) → flatten [⟨t, inString, parent⟩] f = t.descend inString parent f
  | .node type named start stop children => by
    have hinside := flatten_visits (inString || isStringNode type) (some type) f children
    let v : Visit := ⟨.node type named start stop children, inString, parent⟩
    have hskips : v.isSkipped f.position ↔ stop ≤ start ∨ start < f.position :=
      Visit.isSkipped_iff
    have hinner : v.isInner ↔ ¬(children.isEmpty || (atomicKind? type).isSome) :=
      Visit.isInner_iff
    rw [flatten_cons, List.append_nil, SyntaxTree.descend]
    by_cases hskipped : stop ≤ start ∨ start < f.position
    · rw [if_pos (hskips.2 hskipped), if_pos hskipped, flatten]
    · rw [if_neg (mt hskips.1 hskipped), if_neg hskipped]
      by_cases hleaf : children.isEmpty || (atomicKind? type).isSome
      · rw [if_neg fun h => hinner.1 h hleaf, if_pos hleaf, flatten]
        rfl
      · rw [if_pos (hinner.2 hleaf), if_neg hleaf]
        exact hinside

theorem flatten_visits (inString : Bool) (parent : Option String) (f : Flattening) :
    (ts : List SyntaxTree) →
      flatten (ts.map (⟨·, inString, parent⟩)) f = SyntaxTree.descendAll inString parent f ts
  | [] => by rw [SyntaxTree.descendAll, List.map_nil, flatten]
  | t :: ts => by
    rw [List.map_cons, ← List.singleton_append, flatten_append, flatten_visit, flatten_visits,
      SyntaxTree.descendAll]

end

/-! ## Visits that are taken from the stack -/

/-- What there is to do once a visit has been taken from the end of a stack. The children of a node
are put there last one first, so that the first of them is taken next. -/
def Visit.taken (v : Visit) (stack : List Visit) (f : Flattening) : List Visit × Flattening :=
  if v.isSkipped f.position then (stack, f)
  else if v.isInner then (stack ++ v.inside.reverse, f)
  else (stack, f.emitLeaf v.leaf v.tree.start.toNat v.tree.stop.toNat)

/-- The loop over a stack ends with `f'` after it has taken `visits` from it, in this order. -/
inductive StackWalk : List Visit → Flattening → List Visit → Flattening → Prop where
  | done (f : Flattening) : StackWalk [] f [] f
  | take {v : Visit} {stack visits : List Visit} {f f' : Flattening}
      (h : StackWalk (v.taken stack f).1 (v.taken stack f).2 visits f') :
      StackWalk (stack ++ [v]) f (v :: visits) f'

namespace StackWalk

variable {v : Visit} {stack visits visits' : List Visit} {f f₁ f₂ : Flattening}

theorem unique (h : StackWalk stack f visits f₁) (h' : StackWalk stack f visits' f₂) :
    visits = visits' ∧ f₁ = f₂ := by
  induction h generalizing visits' f₂ with
  | done f =>
    generalize hstack : ([] : List Visit) = stack at h'
    cases h' with
    | done => exact ⟨rfl, rfl⟩
    | take => simp at hstack
  | @take v stack visits f f₁ _ ih =>
    generalize hstack : stack ++ [v] = stack' at h'
    cases h' with
    | done => simp at hstack
    | take h' =>
      obtain ⟨rfl, hv⟩ := List.append_inj' hstack rfl
      obtain rfl := List.singleton_inj.1 hv
      obtain ⟨rfl, rfl⟩ := ih h'
      exact ⟨rfl, rfl⟩

/-- A walk over pending visits, of which the first is at the end of the stack. -/
theorem of_pending {pending rest : List Visit}
    (hrest : (v.taken pending.reverse f).1 = rest.reverse)
    (h : StackWalk rest.reverse (v.taken pending.reverse f).2 visits f₁) :
    StackWalk (v :: pending).reverse f (v :: visits) f₁ := by
  rw [List.reverse_cons]
  exact .take (hrest ▸ h)

end StackWalk

namespace SyntaxTree

mutual

theorem length_occurrences (around : List SyntaxTree) :
    (t : SyntaxTree) → (t.occurrences around).length = t.size
  | .node .. => by rw [occurrences, List.length_cons, length_occurrencesAll, size, Nat.add_comm]

theorem length_occurrencesAll (around : List SyntaxTree) :
    (ts : List SyntaxTree) → (occurrencesAll around ts).length = sizeAll ts
  | [] => rfl
  | t :: ts => by
    rw [occurrencesAll, List.length_append, length_occurrences, length_occurrencesAll, sizeAll]

end

end SyntaxTree

namespace Occurrence

/-- The nodes from a node down, each one before those below it. -/
def below (o : Occurrence) : List Occurrence := o.node.occurrences o.around

theorem below_eq (o : Occurrence) : o.below = o :: o.inside.flatMap below := by
  rw [below, SyntaxTree.occurrences_eq, inside, List.flatMap_map]
  rfl

theorem sublist_visits {o : Occurrence} {pending : List Occurrence} {visits : List Visit}
    (h : visits.Sublist (((o.inside ++ pending).flatMap below).map visit)) :
    (o.visit :: visits).Sublist (((o :: pending).flatMap below).map visit) := by
  rw [List.flatMap_cons, o.below_eq, List.cons_append, List.map_cons, ← List.flatMap_append]
  exact h.cons_cons _

/-- A node may be taken without those below it. -/
theorem sublist_visits_of_passed {o : Occurrence} {pending : List Occurrence} {visits : List Visit}
    (h : visits.Sublist ((pending.flatMap below).map visit)) :
    (o.visit :: visits).Sublist (((o :: pending).flatMap below).map visit) := by
  refine sublist_visits ?_
  rw [List.flatMap_append, List.map_append]
  exact h.trans (List.sublist_append_right _ _)

end Occurrence

/-- The loop comes to its end, and takes the nodes in their order in the tree. -/
theorem exists_stackWalk (pending : List Occurrence) (f : Flattening) :
    ∃ visits, StackWalk (pending.map Occurrence.visit).reverse f visits
        (flatten (pending.map Occurrence.visit) f) ∧
      visits.Sublist ((pending.flatMap Occurrence.below).map Occurrence.visit) := by
  generalize hpending : pending.map Occurrence.visit = waiting
  fun_induction flatten waiting f generalizing pending with
  | case1 f => exact ⟨[], .done f, List.nil_sublist _⟩
  | case2 f v waiting hskipped ih =>
    obtain ⟨o, pending, rfl, rfl, rfl⟩ := List.map_eq_cons_iff.1 hpending
    obtain ⟨visits, hwalk, hvisits⟩ := ih pending rfl
    have htaken : o.visit.taken (pending.map Occurrence.visit).reverse f =
        ((pending.map Occurrence.visit).reverse, f) := by
      rw [Visit.taken, if_pos hskipped]
    exact ⟨o.visit :: visits, .of_pending (congrArg Prod.fst htaken) (by rwa [htaken]),
      Occurrence.sublist_visits_of_passed hvisits⟩
  | case3 f v waiting hskipped hinner ih =>
    obtain ⟨o, pending, rfl, rfl, rfl⟩ := List.map_eq_cons_iff.1 hpending
    obtain ⟨visits, hwalk, hvisits⟩ := ih (o.inside ++ pending)
      (by rw [List.map_append, Occurrence.inside_visit])
    have htaken : o.visit.taken (pending.map Occurrence.visit).reverse f =
        ((o.visit.inside ++ pending.map Occurrence.visit).reverse, f) := by
      rw [Visit.taken, if_neg hskipped, if_pos hinner, List.reverse_append]
    exact ⟨o.visit :: visits, .of_pending (congrArg Prod.fst htaken) (by rwa [htaken]),
      Occurrence.sublist_visits hvisits⟩
  | case4 f v waiting hskipped hinner ih =>
    obtain ⟨o, pending, rfl, rfl, rfl⟩ := List.map_eq_cons_iff.1 hpending
    obtain ⟨visits, hwalk, hvisits⟩ := ih pending rfl
    have htaken : o.visit.taken (pending.map Occurrence.visit).reverse f =
        ((pending.map Occurrence.visit).reverse,
          f.emitLeaf o.visit.leaf o.visit.tree.start.toNat o.visit.tree.stop.toNat) := by
      rw [Visit.taken, if_neg hskipped, if_neg hinner]
    exact ⟨o.visit :: visits, .of_pending (congrArg Prod.fst htaken) (by rwa [htaken]),
      Occurrence.sublist_visits_of_passed hvisits⟩

/-- The loop over the stack gives what the descent gives. It comes to its end, in one way only, and
takes the nodes from the stack in their order in the tree, none of them twice. -/
theorem flatten_descends (source : List UInt8) (tree : SyntaxTree) :
    flatten [⟨tree, false, none⟩] { rest := source } =
      tree.descend false none { rest := source } ∧
    tokenize source tree =
      (tree.descend false none { rest := source }).finish.tokens.toList ∧
    ∃ taken : List Visit,
      (∀ visits f, StackWalk [⟨tree, false, none⟩] { rest := source } visits f ↔
        visits = taken ∧ f = tree.descend false none { rest := source }) ∧
      taken.Sublist ((tree.occurrences []).map Occurrence.visit) ∧ taken.length ≤ tree.size := by
  have hdescend := flatten_visit false none { rest := source } tree
  obtain ⟨taken, hwalk, htaken⟩ := exists_stackWalk [⟨tree, []⟩] { rest := source }
  rw [List.flatMap_singleton] at htaken
  refine ⟨hdescend, by rw [tokenize, hdescend], taken, fun visits f => ⟨fun h => ?_, ?_⟩,
    htaken, ?_⟩
  · obtain ⟨rfl, rfl⟩ := h.unique hwalk
    exact ⟨rfl, hdescend⟩
  · rintro ⟨rfl, rfl⟩
    exact hdescend ▸ hwalk
  · have hlength := htaken.length_le
    rwa [List.length_map, Occurrence.below, SyntaxTree.length_occurrences] at hlength

end TagsFile
