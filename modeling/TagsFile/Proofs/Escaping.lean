import Mathlib
import TagsFile.Tag.Search

/-!
# Escaped patterns

A pattern is escaped by one replacement after the other, each of them over all that the earlier ones
have left. None of them writes what a later one looks for, so that together they act like one pass
over the pattern. Up to its line breaks, the pattern can be read back from what the pass gives.

## Main definitions

* `escapePoint`: what the pass puts for one code point.
* `unescape`: a text without the backslashes that escape what follows them.

## Main statements

* `escapePattern_simultaneous`: the replacements as one pass, and how much of a pattern is kept.
-/

namespace TagsFile

/-- What stands for a code point in an escaped pattern. -/
def escapePoint (c : CodePoint) : Text :=
  if c = .char '\\' then "\\\\"
  else if c = .char '$' then "\\$"
  else if c = .char '^' then "\\^"
  else if c = .char '\n' then ";"
  else [c]

/-- Replacements act on each code point of a text by itself, whatever they write. -/
theorem foldl_replacePoint (escapes : List (CodePoint × Text)) (t : Text) :
    escapes.foldl (fun t (c, replacement) => replacePoint c replacement t) t =
      t.flatMap fun d =>
        escapes.foldl (fun t (c, replacement) => replacePoint c replacement t) [d] := by
  induction escapes generalizing t with
  | nil => simp
  | cons escape escapes ih =>
    simp only [List.foldl_cons]
    rw [ih, replacePoint, List.flatMap_assoc]
    congr 1
    funext d
    rw [ih (replacePoint _ _ [d])]
    simp [replacePoint]

/-- No later replacement touches what the first one to act on a code point has written. -/
theorem escapePattern_singleton (c : CodePoint) : escapePattern [c] = escapePoint c := by
  unfold escapePoint
  split_ifs with hslash hdollar hcaret hbreak
  · subst hslash; decide
  · subst hdollar; decide
  · subst hcaret; decide
  · subst hbreak; decide
  · simp [escapePattern, patternEscapes, replacePoint, hslash, hdollar, hcaret, hbreak]

theorem escapePattern_eq_flatMap (t : Text) : escapePattern t = t.flatMap escapePoint := by
  rw [escapePattern, foldl_replacePoint]
  exact List.flatMap_congr fun c _ => escapePattern_singleton c

theorem escapePattern_cons (c : CodePoint) (t : Text) :
    escapePattern (c :: t) = escapePoint c ++ escapePattern t := by
  rw [escapePattern_eq_flatMap, escapePattern_eq_flatMap, List.flatMap_cons]

theorem escapePattern_append (a b : Text) :
    escapePattern (a ++ b) = escapePattern a ++ escapePattern b := by
  rw [escapePattern_eq_flatMap, List.flatMap_append, ← escapePattern_eq_flatMap,
    ← escapePattern_eq_flatMap]

/-- A code point is escaped by a backslash or stands for itself, a semicolon for a line break. -/
theorem escapePoint_cases (c : CodePoint) :
    (escapePoint c = [.char '\\', c] ∧ c ≠ .char '\n') ∨
      (escapePoint c = [.char ';'] ∧ c = .char '\n') ∨
      (escapePoint c = [c] ∧ c ≠ .char '\n' ∧ c ≠ .char '\\') := by
  unfold escapePoint
  split_ifs with hslash hdollar hcaret hbreak
  · exact .inl ⟨by rw [hslash]; rfl, by rw [hslash]; decide⟩
  · exact .inl ⟨by rw [hdollar]; rfl, by rw [hdollar]; decide⟩
  · exact .inl ⟨by rw [hcaret]; rfl, by rw [hcaret]; decide⟩
  · exact .inr (.inl ⟨rfl, hbreak⟩)
  · exact .inr (.inr ⟨rfl, hbreak, hslash⟩)

theorem break_notMem_escapePattern (t : Text) : .char '\n' ∉ escapePattern t := by
  rw [escapePattern_eq_flatMap]
  intro h
  obtain ⟨c, -, hc⟩ := List.mem_flatMap.1 h
  obtain ⟨heq, hne⟩ | ⟨heq, -⟩ | ⟨heq, hne, -⟩ := escapePoint_cases c <;> rw [heq] at hc
  · simp [Ne.symm hne] at hc
  · simp at hc
  · simp [Ne.symm hne] at hc

/-! ## Taking the escapes back -/

/-- Drops each backslash that escapes what follows it. -/
def unescape : Text → Text
  | [] => []
  | [c] => [c]
  | c :: d :: t => if c = .char '\\' then d :: unescape t else c :: unescape (d :: t)

theorem unescape_cons {c : CodePoint} (h : c ≠ .char '\\') (t : Text) :
    unescape (c :: t) = c :: unescape t := by
  cases t with
  | nil => rfl
  | cons d t => rw [unescape, if_neg h]

/-- Only line breaks are lost. -/
theorem unescape_escapePattern (t : Text) :
    unescape (escapePattern t) = t.map fun c => if c = .char '\n' then .char ';' else c := by
  induction t with
  | nil => rfl
  | cons c t ih =>
    rw [escapePattern_cons, List.map_cons, ← ih]
    obtain ⟨heq, hne⟩ | ⟨heq, rfl⟩ | ⟨heq, hne, hslash⟩ := escapePoint_cases c <;> rw [heq]
    · rw [if_neg hne]
      rfl
    · exact unescape_cons (by decide) _
    · rw [if_neg hne]
      exact unescape_cons hslash _

theorem escapePattern_injOn : Set.InjOn escapePattern {t | .char '\n' ∉ t} := by
  have hback {t : Text} (ht : .char '\n' ∉ t) : unescape (escapePattern t) = t := by
    rw [unescape_escapePattern]
    nth_rewrite 2 [← List.map_id t]
    exact List.map_congr_left fun c hc => if_neg (ne_of_mem_of_not_mem hc ht)
  intro s hs t ht heq
  rw [← hback hs, heq, hback ht]

/-- The replacements are one pass that puts the escape of each code point in its place. So they act
on the parts of a text one by one, leave no line break, and can be taken back but for the semicolons
that stand for line breaks; texts without line breaks are told apart by their escapes. -/
theorem escapePattern_simultaneous :
    (∀ t, escapePattern t = t.flatMap escapePoint) ∧
    (∀ s t, escapePattern (s ++ t) = escapePattern s ++ escapePattern t) ∧
    (∀ t, .char '\n' ∉ escapePattern t) ∧
    (∀ t, unescape (escapePattern t) =
      t.map fun c => if c = .char '\n' then .char ';' else c) ∧
    Set.InjOn escapePattern {t | .char '\n' ∉ t} :=
  ⟨escapePattern_eq_flatMap, escapePattern_append, break_notMem_escapePattern,
    unescape_escapePattern, escapePattern_injOn⟩

theorem escapePattern_simultaneous_dollars :
    .char '\n' ∉ Text.ofString "\\$" ∧ .char '\n' ∉ Text.ofString "$" ∧
      escapePattern "\\$" ≠ escapePattern "$" := by
  have hslash : .char '\n' ∉ Text.ofString "\\$" := by decide
  have hplain : .char '\n' ∉ Text.ofString "$" := by decide
  obtain ⟨-, -, -, -, hinj⟩ := escapePattern_simultaneous
  exact ⟨hslash, hplain, hinj.ne hslash hplain (by decide)⟩

end TagsFile
