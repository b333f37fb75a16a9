import Mathlib
import TagsFile.Token.OfTree

/-!
# What a flattening keeps

A walk over a tree changes its state only where it comes to a leaf: it first moves to the start of
the leaf and then over its bytes. What these two moves keep, the whole walk keeps.

## Main definitions

* `SyntaxTree.offsets`: where the nodes of a tree start and stop.
-/

namespace TagsFile

namespace SyntaxTree

mutual

/-- Where the nodes of a tree start and stop. -/
def offsets : SyntaxTree → List Int
  | .node _ _ start stop children => start :: stop :: offsetsAll children

def offsetsAll : List SyntaxTree → List Int
  | [] => []
  | t :: ts => t.offsets ++ offsetsAll ts

end

theorem offsets_eq (t : SyntaxTree) : t.offsets = t.start :: t.stop :: offsetsAll t.children := by
  cases t; rw [offsets]; rfl

theorem offsetsAll_append (ts us : List SyntaxTree) :
    offsetsAll (ts ++ us) = offsetsAll ts ++ offsetsAll us := by
  induction ts with
  | nil => simp [offsetsAll]
  | cons t ts ih => simp [offsetsAll, ih]

end SyntaxTree

/-- Where the nodes start and stop that are still to be visited. -/
def pendingOffsets (pending : List Visit) : List Int :=
  SyntaxTree.offsetsAll (pending.map Visit.tree)

theorem pendingOffsets_cons (v : Visit) (pending : List Visit) :
    pendingOffsets (v :: pending) =
      v.tree.start :: v.tree.stop :: pendingOffsets (v.inside ++ pending) := by
  simp [pendingOffsets, SyntaxTree.offsetsAll, SyntaxTree.offsets_eq, Visit.inside,
    Function.comp_def, SyntaxTree.offsetsAll_append]

namespace Flattening

@[simp] theorem position_emitGap {f : Flattening} {start : Nat} (h : f.position ≤ start) :
    (f.emitGap start).position = start := by
  rw [emitGap]
  split
  · rfl
  · simp only [emit]; omega

/-- A leaf is reached by one move and covered by another. -/
theorem emitLeaf_eq (leaf : Leaf) (stop : Nat) {f : Flattening} {start : Nat}
    (h : f.position ≤ start) : ∃ kind previous, f.emitLeaf leaf start stop =
      { (f.emitGap start).emit kind (stop - (f.emitGap start).position) with previous } := by
  rw [position_emitGap h]
  exact ⟨_, _, rfl⟩

/-- What the two moves over a leaf keep is kept by the whole walk. The moves go to offsets of nodes,
never back, and the second one goes forward. -/
theorem flatten_keeps (kept : Flattening → Prop) (good : Int → Prop)
    (gap : ∀ f start, good (start : Nat) → f.position ≤ start → kept f → kept (f.emitGap start))
    (leaf : ∀ f kind stop previous, good (stop : Nat) → f.position < stop → kept f →
      kept { f.emit kind (stop - f.position) with previous })
    {pending : List Visit} {f : Flattening} (offsets : ∀ k ∈ pendingOffsets pending, good k)
    (start : kept f) : kept (flatten pending f) := by
  fun_induction flatten pending f with
  | case1 f => exact start
  | case2 f v pending hskip ih =>
    refine ih (fun k hk => offsets k ?_) start
    rw [pendingOffsets_cons]
    simp_all [pendingOffsets, SyntaxTree.offsetsAll_append]
  | case3 f v pending hskip hinner ih =>
    refine ih (fun k hk => offsets k ?_) start
    rw [pendingOffsets_cons]
    simp [hk]
  | case4 f v pending hskip hinner ih =>
    obtain ⟨hlt, hpos⟩ : v.tree.start < v.tree.stop ∧ f.position ≤ v.tree.start := by
      simp [Visit.isSkipped] at hskip; omega
    have hstart := offsets v.tree.start (by simp [pendingOffsets_cons])
    have hstop := offsets v.tree.stop (by simp [pendingOffsets_cons])
    rw [← Int.toNat_of_nonneg (show 0 ≤ v.tree.start by omega)] at hstart
    rw [← Int.toNat_of_nonneg (show 0 ≤ v.tree.stop by omega)] at hstop
    have hle : f.position ≤ v.tree.start.toNat := by omega
    obtain ⟨kind, previous, heq⟩ := emitLeaf_eq v.leaf v.tree.stop.toNat hle
    refine ih (fun k hk => offsets k ?_) ?_
    · rw [pendingOffsets_cons]
      simp_all [pendingOffsets, SyntaxTree.offsetsAll_append]
    · rw [heq]
      exact leaf _ kind _ previous hstop (by rw [position_emitGap hle]; omega)
        (gap f _ hstart hle start)

end Flattening
end TagsFile
