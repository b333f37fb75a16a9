/-!
# Tables

A finite map as a list of pairs. Of two pairs with one key the first counts.
-/

namespace TagsFile

abbrev Table (α β : Type) := List (α × β)

namespace Table

variable {α β : Type} [DecidableEq α]

def get? (t : Table α β) (key : α) : Option β :=
  match t with
  | [] => none
  | (k, v) :: t => if k = key then some v else get? t key

def erase (t : Table α β) (key : α) : Table α β := t.filter fun pair => pair.1 ≠ key

def put (t : Table α β) (key : α) (value : β) : Table α β := (key, value) :: t.erase key

/-- Changes the value of a key that has one. -/
def adjust (t : Table α β) (key : α) (f : β → β) : Table α β :=
  t.map fun (k, v) => (k, if k = key then f v else v)

@[simp, grind =] theorem get?_nil (key : α) : get? ([] : Table α β) key = none := rfl

theorem get?_filter (test : α → Bool) (t : Table α β) (key : α) :
    get? (t.filter fun pair => test pair.1) key = if test key then get? t key else none := by
  induction t with
  | nil => simp
  | cons pair t ih =>
    obtain ⟨k, v⟩ := pair
    by_cases hk : test k <;> by_cases h : k = key <;> simp_all [get?]

@[grind =] theorem get?_erase (t : Table α β) (key other : α) :
    (t.erase key).get? other = if other = key then none else t.get? other := by
  simpa [erase] using get?_filter (fun k => decide (k ≠ key)) t other

@[grind =] theorem get?_put (t : Table α β) (key other : α) (value : β) :
    (t.put key value).get? other = if other = key then some value else t.get? other := by
  by_cases h : other = key <;> simp_all [put, get?, get?_erase, eq_comm]

@[grind =] theorem get?_adjust (t : Table α β) (key other : α) (f : β → β) :
    (t.adjust key f).get? other = if other = key then (t.get? key).map f else t.get? other := by
  induction t with
  | nil => simp [adjust]
  | cons pair t ih =>
    obtain ⟨k, v⟩ := pair
    by_cases hk : k = key <;> by_cases ho : other = key <;> by_cases h : k = other <;>
      simp_all [adjust, get?]

end Table
end TagsFile
