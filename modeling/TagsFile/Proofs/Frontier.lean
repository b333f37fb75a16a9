import TagsFile.Proofs.Coverage

/-!
# Tokens of well-nested trees

In a tree of a grammar, the span of a node lies inside of the one of its parent, and the spans of
its children come one after the other. No node of such a tree is passed over that covers anything:
the tokens are the leaves, in the order of the source, and what lies between them.

## Main definitions

* `SyntaxTree.nestsIn`: well-nested trees.
* `Occurrence`, `SyntaxTree.occurrences`: nodes of a tree with the nodes around them.
* `Occurrence.isFrontier`: nodes that are one token.
* `layOut`: leaves with the gaps between them, and `Piece.Gives`: the tokens of these.
* `Ready`: what holds of the nodes that are still to be visited.

## Main statements

* `tokenize_lays_out_leaves`: the tokens of a well-nested tree.
-/

namespace TagsFile

/-- A node of a tree with the nodes around it, innermost first. -/
structure Occurrence where
  node : SyntaxTree
  around : List SyntaxTree

namespace SyntaxTree

/-! ## Well-nested trees -/

mutual

/-- Whether a node lies between two offsets, and the nodes below it lie inside of their parents, in
order and apart from each other. A node may stop before it starts, and then it covers nothing. -/
def nestsIn (low high : Int) : SyntaxTree → Bool
  | .node _ _ start stop children =>
    low ≤ start && stop ≤ high && children.Pairwise (·.stop ≤ ·.start) &&
      allNestIn start stop children

def allNestIn (low high : Int) : List SyntaxTree → Bool
  | [] => true
  | t :: ts => t.nestsIn low high && allNestIn low high ts

end

theorem allNestIn_iff {low high : Int} {ts : List SyntaxTree} :
    allNestIn low high ts ↔ ∀ t ∈ ts, t.nestsIn low high := by
  induction ts with
  | nil => simp [allNestIn]
  | cons t ts ih => simp [allNestIn, ih]

theorem nestsIn_iff {low high : Int} {t : SyntaxTree} :
    t.nestsIn low high ↔ low ≤ t.start ∧ t.stop ≤ high ∧
      t.children.Pairwise (·.stop ≤ ·.start) ∧ ∀ c ∈ t.children, c.nestsIn t.start t.stop := by
  cases t
  rw [nestsIn]
  simp only [Bool.and_eq_true, decide_eq_true_eq, allNestIn_iff, and_assoc]
  rfl

/-! ## Nodes of a tree -/

/-- Whether a node is one token whatever it contains. -/
def isAtomic (t : SyntaxTree) : Bool := (atomicKind? t.type).isSome

mutual

/-- The nodes of a tree, each one before those below it. -/
def occurrences (around : List SyntaxTree) : SyntaxTree → List Occurrence
  | .node type named start stop children =>
    let t := .node type named start stop children
    ⟨t, around⟩ :: occurrencesAll (t :: around) children

def occurrencesAll (around : List SyntaxTree) : List SyntaxTree → List Occurrence
  | [] => []
  | t :: ts => t.occurrences around ++ occurrencesAll around ts

end

theorem occurrencesAll_eq (around : List SyntaxTree) (ts : List SyntaxTree) :
    occurrencesAll around ts = ts.flatMap (occurrences around) := by
  induction ts with
  | nil => rfl
  | cons t ts ih => rw [occurrencesAll, ih, List.flatMap_cons]

theorem occurrences_eq (around : List SyntaxTree) (t : SyntaxTree) :
    t.occurrences around = ⟨t, around⟩ :: t.children.flatMap (occurrences (t :: around)) := by
  cases t
  rw [occurrences, occurrencesAll_eq, children]

/-- What holds of a node if it holds of its children holds of every tree. -/
@[elab_as_elim] theorem children_induction {motive : SyntaxTree → Prop}
    (step : ∀ t, (∀ c ∈ t.children, motive c) → motive t) (t : SyntaxTree) : motive t :=
  step t fun c _hc => children_induction step c
termination_by sizeOf t
decreasing_by
  cases t
  have := List.sizeOf_lt_of_mem _hc
  simp only [node.sizeOf_spec, children] at this ⊢
  omega

/-- The nodes around a tree are around all of its nodes. -/
theorem around_subset {t : SyntaxTree} {around : List SyntaxTree} :
    ∀ o ∈ t.occurrences around, around ⊆ o.around := by
  induction t using children_induction generalizing around with
  | step t ih =>
    rw [occurrences_eq]
    intro o ho
    rcases List.mem_cons.1 ho with rfl | ho
    · exact List.Subset.refl _
    · obtain ⟨c, hc, ho⟩ := List.mem_flatMap.1 ho
      exact List.Subset.trans (List.subset_cons_self t around) (ih c hc o ho)

/-- Every node of a well-nested tree lies inside of the whole. -/
theorem span_of_mem_occurrences {t : SyntaxTree} {low high : Int} {around : List SyntaxTree}
    (h : t.nestsIn low high) :
    ∀ o ∈ t.occurrences around, t.start ≤ o.node.start ∧ o.node.stop ≤ t.stop := by
  induction t using children_induction generalizing low high around with
  | step t ih =>
    obtain ⟨-, -, -, hchildren⟩ := nestsIn_iff.1 h
    rw [occurrences_eq]
    intro o ho
    rcases List.mem_cons.1 ho with rfl | ho
    · exact ⟨le_rfl, le_rfl⟩
    · obtain ⟨c, hc, ho⟩ := List.mem_flatMap.1 ho
      obtain ⟨hstart, hstop, -, -⟩ := nestsIn_iff.1 (hchildren c hc)
      obtain ⟨hstart', hstop'⟩ := ih c hc (hchildren c hc) o ho
      exact ⟨hstart.trans hstart', hstop'.trans hstop⟩

end SyntaxTree

namespace Visit

theorem isSkipped_iff {v : Visit} {position : Nat} : v.isSkipped position ↔
    v.tree.stop ≤ v.tree.start ∨ v.tree.start < position := by
  rw [isSkipped, Bool.or_eq_true, decide_eq_true_eq, decide_eq_true_eq]

theorem isInner_iff {v : Visit} :
    v.isInner ↔ ¬(v.tree.children.isEmpty || v.tree.isAtomic) := by
  rw [isInner, Bool.and_eq_true, decide_eq_true_eq, Bool.or_eq_true, not_or,
    List.isEmpty_iff, SyntaxTree.isAtomic, Option.not_isSome_iff_eq_none, Option.isNone_iff_eq_none]

end Visit

namespace Occurrence

/-- Whether the walk over a tree ends at a node: nothing is below it or it is one token whatever it
contains, and no node around it is such a token. -/
def isFrontier (o : Occurrence) : Bool :=
  (o.node.children.isEmpty || o.node.isAtomic) && o.around.all (!·.isAtomic)

/-- Whether a node covers anything. -/
def isWide (o : Occurrence) : Bool := o.node.start < o.node.stop

/-- The nodes from a node down that are tokens. -/
def leaves (o : Occurrence) : List Occurrence :=
  ((o.node.occurrences o.around).filter isFrontier).filter isWide

/-- The children of a node. -/
def inside (o : Occurrence) : List Occurrence := o.node.children.map (⟨·, o.node :: o.around⟩)

/-- What a walk knows of a node. -/
def visit (o : Occurrence) : Visit :=
  ⟨o.node, o.around.any (isStringNode ·.type), o.around.head?.map SyntaxTree.type⟩

theorem tree_visit (o : Occurrence) : o.visit.tree = o.node := rfl

theorem isSkipped_visit {o : Occurrence} {position : Nat} : o.visit.isSkipped position ↔
    o.node.stop ≤ o.node.start ∨ o.node.start < position :=
  Visit.isSkipped_iff

theorem inside_visit (o : Occurrence) : o.visit.inside = o.inside.map visit := by
  simp [Visit.inside, inside, visit, Bool.or_comm]

theorem leaves_of_narrow {o : Occurrence} {low high : Int} (h : o.node.nestsIn low high)
    (hle : o.node.stop ≤ o.node.start) : o.leaves = [] := by
  rw [leaves, List.filter_eq_nil_iff]
  intro p hp
  obtain ⟨hstart, hstop⟩ := SyntaxTree.span_of_mem_occurrences h p (List.mem_filter.1 hp).1
  simp only [isWide, decide_eq_true_eq]
  omega

theorem isInner_visit {o : Occurrence} :
    o.visit.isInner ↔ ¬(o.node.children.isEmpty || o.node.isAtomic) :=
  Visit.isInner_iff

theorem leaves_of_inner {o : Occurrence} (h : o.visit.isInner) :
    o.leaves = o.inside.flatMap leaves := by
  have hself : ¬o.isFrontier := by
    rw [isInner_visit] at h
    simp [isFrontier, h]
  rw [leaves, SyntaxTree.occurrences_eq, List.filter_cons_of_neg hself, List.filter_flatMap,
    List.filter_flatMap, inside, List.flatMap_map]
  rfl

theorem leaves_of_not_inner {o : Occurrence} (h : ¬o.visit.isInner) (hwide : o.isWide)
    (haround : o.around.all (!·.isAtomic)) : o.leaves = [o] := by
  rw [isInner_visit, not_not] at h
  have hself : o.isFrontier := by simp only [isFrontier, h, haround, Bool.and_self]
  -- what is below an atomic node has that node around it
  have hbelow : (o.node.children.flatMap (SyntaxTree.occurrences (o.node :: o.around))).filter
      isFrontier = [] := by
    rw [List.filter_eq_nil_iff]
    intro p hp hfrontier
    obtain ⟨c, hc, hp⟩ := List.mem_flatMap.1 hp
    have hnode := SyntaxTree.around_subset p hp List.mem_cons_self
    have hatomic : o.node.isAtomic := by
      rcases Bool.or_eq_true_iff.1 h with hnil | hatomic
      · rw [List.isEmpty_iff.1 hnil] at hc
        cases hc
      · exact hatomic
    have hnot := List.all_eq_true.1 (Bool.and_eq_true_iff.1 hfrontier).2 _ hnode
    simp [hatomic] at hnot
  rw [leaves, SyntaxTree.occurrences_eq, List.filter_cons_of_pos hself, hbelow]
  exact List.filter_cons_of_pos hwide

end Occurrence

/-! ## Pieces -/

/-- A part of a source that is one token: a leaf of its tree, or what lies between two leaves. -/
inductive Piece where
  | gap (start stop : Nat)
  | leaf (o : Occurrence)

/-- The bytes from one offset to another. -/
def slice (source : List UInt8) (start stop : Nat) : List UInt8 :=
  (source.drop start).take (stop - start)

namespace Piece

/-- What lies between two offsets, if there is anything. -/
def between (start stop : Nat) : List Piece := if start < stop then [gap start stop] else []

def leaf? : Piece → Option Occurrence
  | gap .. => none
  | leaf o => some o

/-- Whether a token is the one of a piece. The kind of a leaf depends on an earlier token. -/
def Gives (source : List UInt8) : Piece → Token → Prop
  | gap start stop, t => t.text = lossyText (slice source start stop) ∧
      t.kind = if (slice source start stop).all isBlankByte then .blank else .literal
  | leaf o, t => t.text = lossyText (slice source o.node.start.toNat o.node.stop.toNat) ∧
      ∃ previous, t.kind = classify o.visit.leaf t.text previous

end Piece

/-- The pieces from an offset to the end of a source: leaves and what lies before, between and
behind them. -/
def layOut (size position : Nat) : List Occurrence → List Piece
  | [] => Piece.between position size
  | o :: os =>
    Piece.between position o.node.start.toNat ++ .leaf o :: layOut size o.node.stop.toNat os

theorem filterMap_leaf?_layOut (size position : Nat) (os : List Occurrence) :
    (layOut size position os).filterMap Piece.leaf? = os := by
  have hbetween (start stop : Nat) : (Piece.between start stop).filterMap Piece.leaf? = [] := by
    unfold Piece.between
    split <;> rfl
  induction os generalizing position with
  | nil => exact hbetween _ _
  | cons o os ih =>
    rw [layOut, List.filterMap_append, hbetween, List.nil_append, List.filterMap_cons, ih]
    rfl

namespace Flattening

/-- A move to an offset of the source makes the gap up to there a token. -/
theorem emitGap_gives {source : List UInt8} {f : Flattening}
    (hrest : f.rest = source.drop f.position) {start : Nat} (hstart : start ≤ source.length) :
    ∃ more, (f.emitGap start).tokens.toList = f.tokens.toList ++ more ∧
      List.Forall₂ (Piece.Gives source) (Piece.between f.position start) more := by
  have hslice : f.rest.take (start - f.position) = slice source f.position start := by
    rw [hrest, slice]
  by_cases hlt : f.position < start
  · have hne : f.rest.take (start - f.position) ≠ [] := by
      apply List.ne_nil_of_length_pos
      rw [hrest, List.length_take, List.length_drop]
      omega
    rw [emitGap, if_neg hne, Piece.between, if_pos hlt]
    refine ⟨[⟨_, f.peek (start - f.position), f.line⟩], Array.toList_push, .cons ⟨?_, ?_⟩ .nil⟩
    · rw [peek, hslice, lossyText]
    · rw [hslice]
  · have hnil : f.rest.take (start - f.position) = [] := by
      rw [Nat.sub_eq_zero_of_le (Nat.le_of_not_lt hlt), List.take_zero]
    rw [emitGap, if_pos hnil, Piece.between, if_neg hlt]
    exact ⟨[], (List.append_nil _).symm, .nil⟩

/-- A leaf makes a token of its own behind the one of the gap before it. -/
theorem emitLeaf_gives {source : List UInt8} {f : Flattening}
    (hrest : f.rest = source.drop f.position) {o : Occurrence}
    (hle : f.position ≤ o.node.start.toNat) (hin : o.node.start.toNat ≤ source.length) :
    ∃ more, (f.emitLeaf o.visit.leaf o.node.start.toNat o.node.stop.toNat).tokens.toList =
        f.tokens.toList ++ more ∧
      List.Forall₂ (Piece.Gives source)
        (Piece.between f.position o.node.start.toNat ++ [.leaf o]) more := by
  obtain ⟨more, htokens, hmore⟩ := emitGap_gives hrest hin
  let g := f.emitGap o.node.start.toNat
  let text := g.peek (o.node.stop.toNat - o.node.start.toNat)
  let token : Token := ⟨classify o.visit.leaf text g.previous, text, g.line⟩
  have htext : text = lossyText (slice source o.node.start.toNat o.node.stop.toNat) := by
    simp only [text, g, peek, rest_emitGap hrest hle, lossyText, slice]
  have hpush : (f.emitLeaf o.visit.leaf o.node.start.toNat o.node.stop.toNat).tokens.toList =
      g.tokens.toList ++ [token] := Array.toList_push
  refine ⟨more ++ [token], by rw [hpush, htokens, List.append_assoc], ?_⟩
  exact List.rel_append hmore (.cons ⟨htext, g.previous, rfl⟩ .nil)

theorem position_emitLeaf {f : Flattening} (leaf : Leaf) {start stop : Nat}
    (hle : f.position ≤ start) (hlt : start ≤ stop) :
    (f.emitLeaf leaf start stop).position = stop := by
  simp only [emitLeaf, emit, position_emitGap hle]
  omega

theorem rest_emitLeaf {source : List UInt8} {f : Flattening}
    (hrest : f.rest = source.drop f.position) (leaf : Leaf) {start stop : Nat}
    (hle : f.position ≤ start) (hlt : start ≤ stop) :
    (f.emitLeaf leaf start stop).rest = source.drop stop := by
  simp only [emitLeaf, emit, rest_emitGap hrest hle, List.drop_drop]
  congr 1
  omega

end Flattening

/-! ## Walks over well-nested trees -/

/-- The nodes that are still to be visited lie behind what is covered, in order and apart from each
other, and none of them is inside of a token. -/
structure Ready (size : Nat) (position : Nat) (pending : List Occurrence) : Prop where
  nested : ∀ o ∈ pending, o.node.nestsIn position size
  ordered : pending.Pairwise fun o p => o.node.stop ≤ p.node.start
  around : ∀ o ∈ pending, o.around.all (!·.isAtomic)

namespace Ready

variable {size position : Nat} {o : Occurrence} {pending : List Occurrence}

theorem tail (h : Ready size position (o :: pending)) : Ready size position pending where
  nested p hp := h.nested p (List.mem_cons_of_mem _ hp)
  ordered := (List.pairwise_cons.1 h.ordered).2
  around p hp := h.around p (List.mem_cons_of_mem _ hp)

theorem inside (h : Ready size position (o :: pending)) (hinner : o.visit.isInner) :
    Ready size position (o.inside ++ pending) := by
  obtain ⟨hstart, hstop, hchildren, hbelow⟩ := SyntaxTree.nestsIn_iff.1 (h.nested o (by simp))
  have hbehind := (List.pairwise_cons.1 h.ordered).1
  have hinside : ∀ p ∈ o.inside, ∃ c ∈ o.node.children, p = ⟨c, o.node :: o.around⟩ := by
    intro p hp
    obtain ⟨c, hc, rfl⟩ := List.mem_map.1 hp
    exact ⟨c, hc, rfl⟩
  constructor
  · intro p hp
    rcases List.mem_append.1 hp with hp | hp
    · obtain ⟨c, hc, rfl⟩ := hinside p hp
      obtain ⟨hcstart, hcstop, hrest⟩ := SyntaxTree.nestsIn_iff.1 (hbelow c hc)
      exact SyntaxTree.nestsIn_iff.2 ⟨hstart.trans hcstart, hcstop.trans hstop, hrest⟩
    · exact h.tail.nested p hp
  · refine List.pairwise_append.2 ⟨List.pairwise_map.2 hchildren, h.tail.ordered, ?_⟩
    intro p hp q hq
    obtain ⟨c, hc, rfl⟩ := hinside p hp
    exact (SyntaxTree.nestsIn_iff.1 (hbelow c hc)).2.1.trans (hbehind q hq)
  · intro p hp
    rcases List.mem_append.1 hp with hp | hp
    · obtain ⟨c, hc, rfl⟩ := hinside p hp
      have hatomic : ¬o.node.isAtomic := fun hatomic =>
        Occurrence.isInner_visit.1 hinner (by rw [hatomic, Bool.or_true])
      rw [List.all_cons, h.around o (by simp), Bool.and_true, Bool.not_eq_true']
      exact Bool.eq_false_of_not_eq_true hatomic
    · exact h.tail.around p hp

theorem leaf (h : Ready size position (o :: pending)) (hwide : o.isWide) :
    Ready size o.node.stop.toNat pending where
  nested p hp := by
    have hbehind := (List.pairwise_cons.1 h.ordered).1 p hp
    have hstart := (SyntaxTree.nestsIn_iff.1 (h.nested o (by simp))).1
    obtain ⟨-, hrest⟩ := SyntaxTree.nestsIn_iff.1 (h.tail.nested p hp)
    simp only [Occurrence.isWide, decide_eq_true_eq] at hwide
    exact SyntaxTree.nestsIn_iff.2 ⟨by omega, hrest⟩
  ordered := h.tail.ordered
  around := h.tail.around

end Ready

/-- The walk makes tokens of the leaves that are still to come, and of what lies between them. -/
theorem flatten_gives {source : List UInt8} {pending : List Occurrence} {f : Flattening}
    (hready : Ready source.length f.position pending) (hrest : f.rest = source.drop f.position)
    (hposition : f.position ≤ source.length) :
    ∃ more, (flatten (pending.map Occurrence.visit) f).finish.tokens.toList =
        f.tokens.toList ++ more ∧
      List.Forall₂ (Piece.Gives source)
        (layOut source.length f.position (pending.flatMap Occurrence.leaves)) more := by
  generalize hvisits : pending.map Occurrence.visit = visits
  fun_induction flatten visits f generalizing pending with
  | case1 f =>
    cases List.map_eq_nil_iff.1 hvisits
    have hend : f.position + f.rest.length = source.length := by
      rw [hrest, List.length_drop]
      omega
    rw [Flattening.finish, hend]
    exact Flattening.emitGap_gives hrest le_rfl
  | case2 f v visits hskip ih =>
    obtain ⟨o, pending, rfl, rfl, rfl⟩ := List.map_eq_cons_iff.1 hvisits
    have hnested := hready.nested o (by simp)
    have hstart := (SyntaxTree.nestsIn_iff.1 hnested).1
    -- the node does not start before what is covered, so it covers nothing
    have hnarrow : o.node.stop ≤ o.node.start := by
      rw [Occurrence.isSkipped_visit] at hskip
      omega
    rw [List.flatMap_cons, Occurrence.leaves_of_narrow hnested hnarrow]
    exact ih hready.tail hrest hposition rfl
  | case3 f v visits hskip hinner ih =>
    obtain ⟨o, pending, rfl, rfl, rfl⟩ := List.map_eq_cons_iff.1 hvisits
    rw [List.flatMap_cons, Occurrence.leaves_of_inner hinner, ← List.flatMap_append]
    refine ih (hready.inside hinner) hrest hposition ?_
    rw [List.map_append, Occurrence.inside_visit]
  | case4 f v visits hskip hinner ih =>
    obtain ⟨o, pending, rfl, rfl, rfl⟩ := List.map_eq_cons_iff.1 hvisits
    obtain ⟨hstart, hstop, -⟩ := SyntaxTree.nestsIn_iff.1 (hready.nested o (by simp))
    rw [Occurrence.isSkipped_visit, not_or, not_le, not_lt] at hskip
    have hwide : o.isWide := decide_eq_true hskip.1
    have hle : f.position ≤ o.node.start.toNat := by omega
    have hlt : o.node.start.toNat ≤ o.node.stop.toNat := by omega
    obtain ⟨more, htokens, hmore⟩ := Flattening.emitLeaf_gives hrest hle (by omega)
    rw [Occurrence.tree_visit, Flattening.position_emitLeaf o.visit.leaf hle hlt,
      Flattening.rest_emitLeaf hrest o.visit.leaf hle hlt] at ih
    obtain ⟨others, hothers, hgives⟩ := ih (hready.leaf hwide) rfl (by omega) rfl
    rw [List.flatMap_cons, Occurrence.leaves_of_not_inner hinner hwide (hready.around o (by simp)),
      List.singleton_append, layOut]
    refine ⟨more ++ others, by rw [Occurrence.tree_visit, hothers, htokens, List.append_assoc], ?_⟩
    have happend : List.Forall₂ (Piece.Gives source) (_ ++ _) (more ++ others) :=
      List.rel_append hmore hgives
    rwa [List.append_assoc] at happend

/-- The tokens of a source with a well-nested tree are the nodes of its frontier that cover
anything, one for one and in order, and the gaps: what lies before the first of these nodes,
between each two and behind the last one, wherever that is not empty. -/
theorem tokenize_lays_out_leaves {source : List UInt8} {tree : SyntaxTree}
    (h : tree.nestsIn 0 source.length) :
    let leaves := ((tree.occurrences []).filter Occurrence.isFrontier).filter Occurrence.isWide
    (layOut source.length 0 leaves).filterMap Piece.leaf? = leaves ∧
      List.Forall₂ (Piece.Gives source) (layOut source.length 0 leaves) (tokenize source tree) := by
  refine ⟨filterMap_leaf?_layOut _ _ _, ?_⟩
  have hready : Ready source.length 0 [⟨tree, []⟩] := ⟨by simpa using h, by simp, by simp⟩
  obtain ⟨tokens, htokens, hgives⟩ :=
    flatten_gives (f := { rest := source }) hready rfl (Nat.zero_le _)
  have heq : tokenize source tree = tokens := htokens
  rw [heq]
  simpa [Occurrence.leaves] using hgives

/-- A name with a node inside of it, a node that covers nothing, and a comment. -/
def nameAndComment : SyntaxTree :=
  .node "program" true 0 8 [.node "name" true 0 1 [.node "a" false 0 1 []], .node ")" false 1 1 [],
    .node "statement" true 2 7 [.node "comment" true 2 6 [], .node ";" false 6 7 []]]

theorem tokenize_lays_out_leaves_nameAndComment :
    nameAndComment.nestsIn 0 (Text.Utf8.encode "a /**/; ").length ∧
      (tokenize (Text.Utf8.encode "a /**/; ") nameAndComment).length = 5 := by
  have hnests : nameAndComment.nestsIn 0 (Text.Utf8.encode "a /**/; ").length := by decide
  obtain ⟨-, hgives⟩ := tokenize_lays_out_leaves hnests
  exact ⟨hnests, hgives.length_eq.symm.trans (by decide)⟩

end TagsFile
