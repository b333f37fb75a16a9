/-!
# Searches

What a search has found is given out piece by piece, so it is there also if a fault ends the search.

## Main definitions

* `Found`, with `++` for one search after the other and `Found.when` for one that is tried first.
-/

namespace TagsFile

/-- What a search has found, in order, and the fault that has ended it, if one has. -/
@[ext]
structure Found (ε α : Type) where
  items : List α := []
  fault : Option ε := none
deriving DecidableEq, Repr

namespace Found

variable {ε δ α β : Type}

/-- One search after the other; there is no other after a fault. -/
instance : Append (Found ε α) where
  append a b :=
    match a.fault with
    | some e => { items := a.items, fault := some e }
    | none => { items := a.items ++ b.items, fault := b.fault }

/-- A search that is made if a test comes out so. -/
@[macro_inline] def when (test : Except ε Bool) (found : Found ε α) : Found ε α :=
  match test with
  | .error e => { fault := some e }
  | .ok true => found
  | .ok false => {}

def map (f : α → β) (found : Found ε α) : Found ε β :=
  { items := found.items.map f, fault := found.fault }

def mapFault (f : ε → δ) (found : Found ε α) : Found δ α :=
  { items := found.items, fault := found.fault.map f }

/-- All that there is to be found, or the fault. -/
def toExcept (found : Found ε α) : Except ε (List α) :=
  match found.fault with
  | some e => .error e
  | none => .ok found.items

end Found
end TagsFile
