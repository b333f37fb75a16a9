import TagsFile.Found
import Mathlib.Data.List.Basic

/-!
# Searches that end early

A search that a fault ends has found a first part of what it would have found without the fault.

## Main definitions

* `Found.filter`: what of a search passes a test.
* `Found.StopsBefore`: searches of which one may end before the other.
-/

namespace TagsFile
namespace Found

variable {ε δ α β : Type} {a b c d : Found ε α} {e : ε} {x : α}

theorem append_of_some (h : a.fault = some e) (b : Found ε α) : a ++ b = a := by
  obtain ⟨items, fault⟩ := a
  cases h
  rfl

theorem append_of_none (h : a.fault = none) (b : Found ε α) :
    a ++ b = { items := a.items ++ b.items, fault := b.fault } := by
  obtain ⟨items, fault⟩ := a
  cases h
  rfl

@[simp] theorem empty_append (a : Found ε α) : ({} : Found ε α) ++ a = a := rfl

@[simp] theorem fault_append : (a ++ b).fault = none ↔ a.fault = none ∧ b.fault = none := by
  cases h : a.fault with
  | none => simp [append_of_none h]
  | some e => simp [append_of_some h, h]

theorem fault_append_eq_some :
    (a ++ b).fault = some e ↔ a.fault = some e ∨ a.fault = none ∧ b.fault = some e := by
  cases h : a.fault with
  | none => simp [append_of_none h]
  | some f => simp [append_of_some h, h]

theorem mem_append : x ∈ (a ++ b).items ↔ x ∈ a.items ∨ a.fault = none ∧ x ∈ b.items := by
  cases h : a.fault with
  | none => simp [append_of_none h]
  | some e => simp [append_of_some h]

theorem items_append_sublist (a b : Found ε α) : (a ++ b).items.Sublist (a.items ++ b.items) := by
  cases h : a.fault with
  | none => simp [append_of_none h]
  | some e => simp [append_of_some h]

theorem when_ok (test : Bool) (a : Found ε α) : when (.ok test) a = if test then a else {} := by
  cases test <;> rfl

/-- What of a search passes a test. -/
def filter (keep : α → Bool) (found : Found ε α) : Found ε α :=
  { items := found.items.filter keep, fault := found.fault }

theorem filter_append (keep : α → Bool) (a b : Found ε α) :
    (a ++ b).filter keep = a.filter keep ++ b.filter keep := by
  cases h : a.fault with
  | none =>
    rw [append_of_none h, append_of_none (show (a.filter keep).fault = none from h)]
    simp [filter]
  | some e =>
    rw [append_of_some h, append_of_some (show (a.filter keep).fault = some e from h)]

/-! ## One search that ends before another -/

/-- Whether a search is the same as another, or a fault ends it with a first part of what the other
finds. -/
def StopsBefore (a b : Found ε α) : Prop := a = b ∨ a.fault ≠ none ∧ a.items <+: b.items

theorem StopsBefore.refl (a : Found ε α) : a.StopsBefore a := .inl rfl

theorem StopsBefore.items_prefix (h : a.StopsBefore b) : a.items <+: b.items := by
  obtain rfl | ⟨-, hprefix⟩ := h
  · exact List.prefix_refl _
  · exact hprefix

theorem StopsBefore.eq (h : a.StopsBefore b) (hfault : a.fault = none) : a = b :=
  h.resolve_right fun h => h.1 hfault

theorem StopsBefore.append (h : a.StopsBefore b) (h' : c.StopsBefore d) :
    (a ++ c).StopsBefore (b ++ d) := by
  cases hfault : a.fault with
  | none =>
    obtain rfl := h.eq hfault
    obtain rfl | ⟨hstops, hprefix⟩ := h'
    · exact .refl _
    · refine .inr ⟨by simp [hfault, hstops], ?_⟩
      rw [append_of_none hfault, append_of_none hfault]
      exact (List.prefix_append_right_inj _).2 hprefix
  | some e =>
    refine .inr ⟨by simp [hfault], ?_⟩
    rw [append_of_some hfault]
    refine h.items_prefix.trans ?_
    cases hfault' : b.fault with
    | none =>
      rw [append_of_none hfault']
      exact List.prefix_append ..
    | some e => simp [append_of_some hfault']

theorem StopsBefore.map (f : α → β) (h : a.StopsBefore b) : (a.map f).StopsBefore (b.map f) := by
  obtain rfl | ⟨hstops, hprefix⟩ := h
  · exact .refl _
  · exact .inr ⟨hstops, hprefix.map f⟩

theorem StopsBefore.mapFault (f : ε → δ) (h : a.StopsBefore b) :
    (a.mapFault f).StopsBefore (b.mapFault f) := by
  obtain rfl | ⟨hstops, hprefix⟩ := h
  · exact .refl _
  · exact .inr ⟨by simpa [Found.mapFault] using hstops, hprefix⟩

end Found
end TagsFile
