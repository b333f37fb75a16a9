import Mathlib
import TagsFile.Json.Reader

/-!
# How deep a document goes

Reading stops at values that are too deep inside each other only in documents whose brackets and
braces are that deep inside each other. Those in strings do not count.

## Main definitions

* `Json.deepest`: how many brackets and braces are open at once.
* `Json.nesting`: the same for a whole document.
* `Json.Spans`, `Json.Closes`: what a reader leaves of a document.
-/

namespace TagsFile.Json

/-- Where in a document a character stands. -/
inductive Surroundings where
  | outside
  | inString
  /-- In a string, behind a backslash. -/
  | escaped

/-- The most brackets and braces that are open at once, if `opened` of them are open at the start.
-/
def deepest (around : Surroundings) (opened : Nat) : List Char → Nat
  | [] => opened
  | c :: cs =>
    match around with
    | .escaped => deepest .inString opened cs
    | .inString =>
      if c = '\\' then deepest .escaped opened cs
      else if c = '"' then deepest .outside opened cs
      else deepest .inString opened cs
    | .outside =>
      if c = '"' then deepest .inString opened cs
      else if c = '[' ∨ c = '\x7b' then deepest .outside (opened + 1) cs
      else if c = ']' ∨ c = '\x7d' then max opened (deepest .outside (opened - 1) cs)
      else deepest .outside opened cs

/-- How deep the brackets and braces of a document are inside each other. -/
def nesting (cs : List Char) : Nat := deepest .outside 0 cs

/-- Characters that neither open nor close anything. -/
def isPlain (c : Char) : Bool := !(['"', '[', '\x7b', ']', '\x7d'].contains c)

variable {opened : Nat} {c : Char} {cs rest : List Char}

theorem deepest_plain (h : isPlain c = true) :
    deepest .outside opened (c :: cs) = deepest .outside opened cs := by
  simp [isPlain] at h
  simp [deepest, h]

theorem deepest_open (h : c = '[' ∨ c = '\x7b') :
    deepest .outside opened (c :: cs) = deepest .outside (opened + 1) cs := by
  rcases h with rfl | rfl <;> simp [deepest]

theorem deepest_close (h : c = ']' ∨ c = '\x7d') :
    deepest .outside opened cs ≤ deepest .outside (opened + 1) (c :: cs) := by
  rcases h with rfl | rfl <;> simp [deepest]

theorem deepest_quote : deepest .outside opened ('"' :: cs) = deepest .inString opened cs := by
  simp [deepest]

theorem le_deepest (around : Surroundings) (opened : Nat) (cs : List Char) :
    opened ≤ deepest around opened cs := by
  fun_induction deepest around opened cs <;> omega

theorem deepest_dropWhile {p : Char → Bool} (hp : ∀ c, p c = true → isPlain c = true) :
    deepest .outside opened (cs.dropWhile p) = deepest .outside opened cs := by
  induction cs with
  | nil => rfl
  | cons c cs ih =>
    cases hc : p c with
    | false => rw [List.dropWhile_cons_of_neg (by simp [hc])]
    | true => rw [List.dropWhile_cons_of_pos hc, ih, deepest_plain (hp c hc)]

@[simp] theorem deepest_skipSpace :
    deepest .outside opened (skipSpace cs) = deepest .outside opened cs := by
  apply deepest_dropWhile
  intro c hc
  simp only [isSpace, Bool.or_eq_true, decide_eq_true_eq] at hc
  rcases hc with ((rfl | rfl) | rfl) | rfl <;> decide

/-! ## Strings -/

theorem deepest_backslash :
    deepest .inString opened ('\\' :: c :: cs) = deepest .inString opened cs := by
  simp [deepest]

theorem hexValue?_ne {c : Char} {n : Nat} (h : hexValue? c = some n) : c ≠ '\\' ∧ c ≠ '"' := by
  constructor <;> rintro rfl <;> simp [hexValue?] at h

theorem deepest_hex {n : Nat} (h : hexValue? c = some n) :
    deepest .inString opened (c :: cs) = deepest .inString opened cs := by
  obtain ⟨hbackslash, hquote⟩ := hexValue?_ne h
  simp [deepest, hbackslash, hquote]

theorem map_rest_eq_ok {f : List Nat → List Nat} {r : Reading (List Nat)} {units : List Nat}
    (h : (r.map fun (units, rest) => (f units, rest)) = .ok (units, rest)) :
    ∃ units', r = .ok (units', rest) := by
  cases r with
  | error e => simp [Except.map] at h
  | ok found =>
    refine ⟨found.1, ?_⟩
    simp only [Except.map, Except.ok.injEq, Prod.mk.injEq] at h
    rw [← h.2]

theorem deepest_unit? {a b c d : Char} {n : Nat} (h : unit? a b c d = some n) :
    deepest .inString opened (a :: b :: c :: d :: cs) = deepest .inString opened cs := by
  rw [unit?] at h
  split at h
  · rename_i ha hb hc hd
    rw [deepest_hex ha, deepest_hex hb, deepest_hex hc, deepest_hex hd]
  · simp at h

/-- A string ends where the reader takes it to end. -/
theorem deepest_readUnits {units : List Nat} (h : readUnits cs = .ok (units, rest)) :
    deepest .inString opened cs = deepest .outside opened rest := by
  fun_induction readUnits cs generalizing units with
  | case1 => simp at h
  | case2 cs => simp_all [deepest]
  | case3 => simp at h
  | case4 a b c d cs n hn ih =>
    obtain ⟨units', h⟩ := map_rest_eq_ok h
    rw [deepest_backslash, deepest_unit? hn, ih h]
  | case5 => simp at h
  | case6 c cs _ d _ ih =>
    obtain ⟨units', h⟩ := map_rest_eq_ok h
    rw [deepest_backslash, ih h]
  | case7 => simp at h
  | case8 c cs hquote _ _ hc ih =>
    obtain ⟨units', h⟩ := map_rest_eq_ok h
    rw [← ih h]
    simp_all [deepest]

/-! ## Numbers and words -/

theorem isPlain_of_isAsciiDigit (h : isAsciiDigit c = true) : isPlain c = true := by
  cases hplain : isPlain c with
  | true => rfl
  | false =>
    simp only [isPlain, Bool.not_eq_false', List.contains_iff_mem, List.mem_cons, List.not_mem_nil,
      or_false] at hplain
    rcases hplain with rfl | rfl | rfl | rfl | rfl <;> revert h <;> decide

theorem deepest_integerDigits? {digits : List Char} (h : integerDigits? cs = some (digits, rest)) :
    deepest .outside opened rest = deepest .outside opened cs := by
  unfold integerDigits? at h
  split at h
  · simp only [Option.some.injEq, Prod.mk.injEq] at h
    rw [← h.2, deepest_plain (by decide)]
  · dsimp only at h
    split at h
    · simp at h
    · simp only [Option.some.injEq, Prod.mk.injEq] at h
      rw [← h.2]
      exact deepest_dropWhile fun _ => isPlain_of_isAsciiDigit

theorem deepest_fractionDigits? {digits : List Char}
    (h : fractionDigits? cs = some (digits, rest)) :
    deepest .outside opened rest = deepest .outside opened cs := by
  unfold fractionDigits? at h
  split at h
  · dsimp only at h
    split at h
    · simp at h
    · simp only [Option.some.injEq, Prod.mk.injEq] at h
      rw [← h.2, deepest_plain (by decide)]
      exact deepest_dropWhile fun _ => isPlain_of_isAsciiDigit
  · simp at h

theorem deepest_exponentSign :
    deepest .outside opened (exponentSign cs).2 = deepest .outside opened cs := by
  rw [exponentSign.eq_def]
  split
  · exact (deepest_plain (by decide)).symm
  · exact (deepest_plain (by decide)).symm
  · rfl

theorem deepest_exponent? {n : Int} (h : exponent? cs = some (n, rest)) :
    deepest .outside opened rest = deepest .outside opened cs := by
  cases cs with
  | nil => simp [exponent?] at h
  | cons c cs =>
    rw [exponent?] at h
    split at h
    · rename_i hc
      dsimp only at h
      split at h
      · simp at h
      · have hplain : isPlain c = true := by
          simp only [Bool.or_eq_true, decide_eq_true_eq] at hc
          rcases hc with rfl | rfl <;> decide
        simp only [Option.some.injEq, Prod.mk.injEq] at h
        rw [← h.2, deepest_plain hplain, deepest_dropWhile fun _ => isPlain_of_isAsciiDigit,
          deepest_exponentSign]
    · simp at h

theorem deepest_getD {α : Type} {part : Option (α × List Char)} {a : α}
    (h : ∀ b rest, part = some (b, rest) →
      deepest .outside opened rest = deepest .outside opened cs) :
    deepest .outside opened (part.getD (a, cs)).2 = deepest .outside opened cs := by
  cases part with
  | none => rfl
  | some found => exact h found.1 found.2 rfl

theorem deepest_afterWord? {word : List Char} (hword : ∀ c ∈ word, isPlain c = true)
    (h : afterWord? word cs = some rest) :
    deepest .outside opened rest = deepest .outside opened cs := by
  fun_induction afterWord? word cs with
  | case1 cs => simp_all
  | case2 word c cs ih =>
    rw [ih (fun d hd => hword d (by simp [hd])) h, deepest_plain (hword c (by simp))]
  | case3 => simp at h
  | case4 => simp at h

/-! ## Readers -/

/-- A reader that ends `closed` arrays and objects leaves nothing open that was not open before. If
it stops at a value that is too deep, then more than `depth` brackets and braces are opened. -/
def Spans {α : Type} (closed depth : Nat) (cs : List Char) : Reading α → Prop
  | .ok (_, rest) => ∀ opened, deepest .outside opened rest ≤ deepest .outside (opened + closed) cs
  | .error .tooDeep => ∀ opened, opened + closed + depth < deepest .outside (opened + closed) cs
  | .error _ => True

variable {α β : Type} {closed depth size : Nat}

theorem spans_ok {a : α} (h : ∀ opened, deepest .outside opened rest = deepest .outside opened cs) :
    Spans 0 depth cs (.ok (a, rest)) :=
  fun opened => Nat.le_of_eq (h opened)

/-- Characters that do not matter can stand in front. -/
theorem Spans.of_eq {cs' : List Char} {r : Reading α} (h : Spans closed depth cs r)
    (heq : ∀ opened, deepest .outside opened cs' = deepest .outside opened cs) :
    Spans closed depth cs' r := by
  unfold Spans at h ⊢
  simp only [heq]
  exact h

theorem Spans.plain {r : Reading α} (h : Spans closed depth cs r) (hc : isPlain c = true) :
    Spans closed depth (c :: cs) r :=
  h.of_eq fun _ => deepest_plain hc

/-- A reader that stops where one of its parts does. -/
theorem Spans.error {e : ReadFault} (h : Spans 0 depth cs (.error e : Reading α)) :
    Spans closed depth cs (.error e : Reading β) := by
  cases e with
  | tooDeep => exact fun opened => h (opened + closed)
  | malformed | integerTooLong => trivial

/-- A reader that goes on behind one of its parts. -/
theorem Spans.next {a : α} {r : Reading β} (h : Spans 0 depth cs (.ok (a, rest)))
    (hr : Spans closed depth rest r) : Spans closed depth cs r := by
  match r with
  | .ok _ => exact fun opened => Nat.le_trans (hr opened) (h (opened + closed))
  | .error .tooDeep => exact fun opened => Nat.lt_of_lt_of_le (hr opened) (h (opened + closed))
  | .error .malformed | .error .integerTooLong => trivial

theorem spans_readNumber (negative : Bool) : Spans 0 depth cs (readNumber negative cs) := by
  unfold readNumber
  cases hwhole : integerDigits? cs with
  | none => trivial
  | some found =>
    have hrest (opened : Nat) : deepest .outside opened
        ((exponent? ((fractionDigits? found.2).getD ([], found.2)).2).getD
          (0, ((fractionDigits? found.2).getD ([], found.2)).2)).2 =
            deepest .outside opened cs := by
      rw [deepest_getD fun _ _ => deepest_exponent?,
        deepest_getD fun _ _ => deepest_fractionDigits?]
      exact deepest_integerDigits? hwhole
    dsimp only
    split
    · split
      · trivial
      · exact spans_ok hrest
    · exact spans_ok hrest

theorem spans_readWord {word : String} (hword : ∀ c ∈ word.toList, isPlain c = true)
    (value : Json) :
    Spans 0 depth cs (readWord word value cs) := by
  unfold readWord
  cases hafter : afterWord? word.toList cs with
  | none => trivial
  | some rest => exact spans_ok fun _ => deepest_afterWord? hword hafter

theorem spans_readNumeric : Spans 0 depth (c :: cs) (readNumeric c cs) := by
  unfold readNumeric
  split
  · rename_i hc
    have hminus : isPlain c = true := by
      subst hc
      decide
    split
    · rename_i rest hafter
      refine Spans.plain (spans_ok fun _ => deepest_afterWord? ?_ hafter) hminus
      simp [isPlain]
    · exact (spans_readNumber true).plain hminus
  · split
    · exact spans_readWord (by simp [isPlain]) _
    · split
      · exact spans_readWord (by simp [isPlain]) _
      · exact spans_readNumber false

theorem readUnits_ne_tooDeep : readUnits cs ≠ .error .tooDeep := by
  have hmap {f : List Nat × List Char → List Nat × List Char} {r : Reading (List Nat)}
      (hr : r ≠ .error .tooDeep) : r.map f ≠ .error .tooDeep := by
    cases r <;> simp_all [Except.map]
  fun_induction readUnits cs with
  | case1 | case2 | case3 | case5 | case7 => simp
  | case4 _ _ _ _ _ _ _ ih | case6 _ _ _ _ _ ih | case8 _ _ _ _ _ _ ih => exact hmap ih

/-- A string from its opening quote on. -/
theorem spans_readString (cs : List Char) (depth : Nat) :
    Spans 0 depth ('"' :: cs) (readString cs) := by
  unfold readString
  cases hunits : readUnits cs with
  | error e =>
    cases e with
    | tooDeep => exact absurd hunits readUnits_ne_tooDeep
    | malformed | integerTooLong => trivial
  | ok found =>
    refine spans_ok fun opened => ?_
    rw [deepest_quote]
    exact (deepest_readUnits hunits).symm

theorem spans_readScalar : Spans 0 depth (c :: cs) (readScalar c cs) := by
  unfold readScalar
  split
  · rename_i hc
    subst hc
    have hspans := spans_readString cs depth
    cases hstring : readString cs with
    | error e =>
      rw [hstring] at hspans
      exact hspans.error
    | ok found =>
      rw [hstring] at hspans
      exact hspans
  · split
    · exact spans_readWord (by simp [isPlain]) _
    · split
      · exact spans_readWord (by simp [isPlain]) _
      · split
        · exact spans_readWord (by simp [isPlain]) _
        · exact spans_readNumeric

theorem spans_readKey (cs : List Char) (depth : Nat) : Spans 0 depth cs (readKey cs) := by
  unfold readKey
  split
  · rename_i cs
    have hspans := spans_readString cs depth
    cases hstring : readString cs with
    | error e =>
      rw [hstring] at hspans
      exact hspans.error
    | ok found =>
      rw [hstring] at hspans
      dsimp only
      split
      · rename_i rest hcolon
        refine hspans.next (spans_ok fun opened => ?_)
        rw [deepest_skipSpace, ← @deepest_skipSpace opened found.2, hcolon,
          deepest_plain (by decide)]
      · trivial
  · trivial

/-! ## Arrays and objects -/

/-- What ends an array or an object. -/
theorem spans_close {a : α} (hc : c = ']' ∨ c = '\x7d') :
    Spans 1 depth (c :: rest) (.ok (a, rest)) :=
  fun _ => deepest_close hc

theorem Spans.skipSpace {r : Reading α} (h : Spans closed depth (skipSpace cs) r) :
    Spans closed depth cs r :=
  h.of_eq fun _ => deepest_skipSpace.symm

theorem spans_readItems {item : List Char → Reading Json}
    (hitem : ∀ cs, Spans 0 depth cs (item cs)) (size : Nat) (cs : List Char) :
    Spans 1 depth cs (readItems item size cs) := by
  fun_induction readItems item size cs with
  | case1 => trivial
  | case2 size cs e h => exact (h ▸ hitem cs).error
  | case3 size cs v rest h rest' hclose =>
    refine (h ▸ hitem cs).next (Spans.skipSpace ?_)
    rw [hclose]
    exact spans_close (.inl rfl)
  | case4 size cs v rest h rest' hcomma e herror ih =>
    refine (h ▸ hitem cs).next (Spans.skipSpace ?_)
    rw [hcomma]
    rw [herror] at ih
    exact ih.skipSpace.plain (by decide)
  | case5 size cs v rest h rest' hcomma items after hitems ih =>
    refine (h ▸ hitem cs).next (Spans.skipSpace ?_)
    rw [hcomma]
    rw [hitems] at ih
    exact ih.skipSpace.plain (by decide)
  | case6 => trivial

theorem spans_readMembers {item : List Char → Reading Json}
    (hitem : ∀ cs, Spans 0 depth cs (item cs)) (size : Nat) (cs : List Char) :
    Spans 1 depth cs (readMembers item size cs) := by
  fun_induction readMembers item size cs with
  | case1 => trivial
  | case2 size cs e h => exact (h ▸ spans_readKey cs depth).error
  | case3 size cs key rest h e herror =>
    refine (h ▸ spans_readKey cs depth).next ?_
    exact (herror ▸ hitem rest).error
  | case4 size cs key rest h v rest' hvalue after hclose =>
    refine (h ▸ spans_readKey cs depth).next ((hvalue ▸ hitem rest).next (Spans.skipSpace ?_))
    rw [hclose]
    exact spans_close (.inr rfl)
  | case5 size cs key rest h v rest' hvalue after hcomma e herror ih =>
    refine (h ▸ spans_readKey cs depth).next ((hvalue ▸ hitem rest).next (Spans.skipSpace ?_))
    rw [hcomma]
    rw [herror] at ih
    exact ih.skipSpace.plain (by decide)
  | case6 size cs key rest h v rest' hvalue after hcomma members last hmembers ih =>
    refine (h ▸ spans_readKey cs depth).next ((hvalue ▸ hitem rest).next (Spans.skipSpace ?_))
    rw [hcomma]
    rw [hmembers] at ih
    exact ih.skipSpace.plain (by decide)
  | case7 => trivial

theorem Spans.sameError {e : ReadFault} (h : Spans closed depth cs (.error e : Reading α)) :
    Spans closed depth cs (.error e : Reading β) := by
  cases e <;> exact h

theorem spans_readArray {item : List Char → Reading Json}
    (hitem : ∀ cs, Spans 0 depth cs (item cs)) (size : Nat) (cs : List Char) :
    Spans 1 depth cs (readArray item size cs) := by
  apply Spans.skipSpace
  unfold readArray
  split
  · rename_i hclose
    rw [hclose]
    exact spans_close (.inl rfl)
  · have hspans := spans_readItems hitem size (skipSpace cs)
    split
    · rename_i e h
      rw [h] at hspans
      exact hspans.sameError
    · rename_i items rest h
      rw [h] at hspans
      exact hspans

theorem spans_readObject {item : List Char → Reading Json}
    (hitem : ∀ cs, Spans 0 depth cs (item cs)) (size : Nat) (cs : List Char) :
    Spans 1 depth cs (readObject item size cs) := by
  apply Spans.skipSpace
  unfold readObject
  split
  · rename_i hclose
    rw [hclose]
    exact spans_close (.inr rfl)
  · have hspans := spans_readMembers hitem size (skipSpace cs)
    split
    · rename_i e h
      rw [h] at hspans
      exact hspans.sameError
    · rename_i members rest h
      rw [h] at hspans
      exact hspans

theorem Spans.opening {r : Reading α} (h : Spans 1 depth cs r) (hc : c = '[' ∨ c = '\x7b') :
    Spans 0 (depth + 1) (c :: cs) r := by
  match r with
  | .ok _ =>
    intro opened
    rw [Nat.add_zero, deepest_open hc]
    exact h opened
  | .error .tooDeep =>
    intro opened
    have hdeep := h opened
    rw [Nat.add_zero, deepest_open hc]
    omega
  | .error .malformed | .error .integerTooLong => trivial

theorem spans_readValue (size depth : Nat) (cs : List Char) :
    Spans 0 depth cs (readValue size depth cs) := by
  induction depth generalizing cs with
  | zero =>
    cases cs with
    | nil => trivial
    | cons c cs =>
      rw [readValue]
      split
      · rename_i hc
        intro opened
        have hle := le_deepest .outside (opened + 1) cs
        rw [Nat.add_zero, deepest_open (by simpa using hc)]
        omega
      · exact spans_readScalar
  | succ depth ih =>
    cases cs with
    | nil => trivial
    | cons c cs =>
      rw [readValue]
      split
      · rename_i hc
        exact (spans_readArray ih size cs).opening (.inl hc)
      · split
        · rename_i hc
          exact (spans_readObject ih size cs).opening (.inr hc)
        · exact spans_readScalar

/-- A document that is not nested too deep is not found to be. -/
theorem readWithin_ne_tooDeep {depth : Nat} (h : nesting cs ≤ depth) :
    readWithin depth cs ≠ .error .tooDeep := by
  have hspans := (spans_readValue cs.length depth (skipSpace cs)).skipSpace
  intro hread
  rw [readWithin] at hread
  split at hread
  · rename_i e hvalue
    rw [hvalue, Except.error.inj hread] at hspans
    have hdeep : 0 + 0 + depth < nesting cs := hspans 0
    omega
  · split at hread <;> simp at hread

end TagsFile.Json
