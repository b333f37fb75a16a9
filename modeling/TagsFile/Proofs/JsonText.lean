import Mathlib
import TagsFile.Json.Reader
import TagsFile.Json.Writer

/-!
# Documents read back

The reader takes a rendered value back from the front of a document. It stops for two reasons only:
an integer can have more digits than it reads, and the two halves of a surrogate pair that stand
next to each other in a string are read as one character.

## Main definitions

* `Text.unpaired`: texts without such halves.
* `ReadsBack`: what reading a rendered value comes to, with the faults that may stop it.

There is a lemma `readsBack_*` for each kind of value, from its parts to the whole.
-/

namespace TagsFile

/-- Whether no half of a surrogate pair stands right before one that completes it. -/
def Text.unpaired : Text → Bool
  | a :: b :: rest =>
    !(Json.isHighSurrogate a.toNat && Json.isLowSurrogate b.toNat) && unpaired (b :: rest)
  | _ => true

namespace CodePoint

@[simp] theorem ofNat_toNat (c : CodePoint) : ofNat c.toNat = c := by
  cases c with
  | char c =>
    have hvalid : c.toNat < 0xD800 ∨ 0xDFFF < c.toNat ∧ c.toNat < 0x110000 := c.valid
    rw [ofNat, toNat, dif_neg (by omega), Char.ofNat_toNat]
  | surrogate n =>
    have hn : 0xD800 ≤ 0xD800 + n.val ∧ 0xD800 + n.val < 0xE000 := by omega
    simp only [ofNat, toNat, hn, Nat.add_sub_cancel_left]
    rfl

theorem toNat_lt (c : CodePoint) : c.toNat < 0x110000 := by
  cases c with
  | char c =>
    have hvalid : c.toNat < 0xD800 ∨ 0xDFFF < c.toNat ∧ c.toNat < 0x110000 := c.valid
    simp only [toNat]
    omega
  | surrogate n => simp only [toNat]; omega

end CodePoint

namespace Text

/-- Nothing is joined in a text without first halves of pairs. -/
theorem unpaired_of_forall {t : Text} (h : ∀ c ∈ t, Json.isHighSurrogate c.toNat = false) :
    t.unpaired := by
  induction t with
  | nil => rfl
  | cons a t ih => cases t <;> simp_all [unpaired]

theorem unpaired_ofString (s : String) : (ofString s).unpaired := by
  apply unpaired_of_forall
  intro c hc
  obtain ⟨c, -, rfl⟩ := List.mem_map.1 hc
  have hvalid : c.toNat < 0xD800 ∨ 0xDFFF < c.toNat ∧ c.toNat < 0x110000 := c.valid
  rw [← Bool.not_eq_true, Json.isHighSurrogate, Bool.and_eq_true, decide_eq_true_iff,
    decide_eq_true_iff, CodePoint.toNat]
  omega

end Text

namespace Json

/-! ## Strings -/

/-- The code units that a code point is written as. -/
def unitsOf (c : CodePoint) : List Nat :=
  if c.toNat < 0x10000 then [c.toNat]
  else [0xD800 + (c.toNat - 0x10000) / 0x400, 0xDC00 + (c.toNat - 0x10000) % 0x400]

theorem hexValue?_digitChar {d : Nat} (h : d < 16) : hexValue? d.digitChar = some d :=
  (show ∀ d, d < 16 → hexValue? d.digitChar = some d by decide) d h

theorem hex_four {n : Nat} (h : n < 0x10000) :
    Text.hex 4 n = [(n / 4096).digitChar, (n / 256 % 16).digitChar, (n / 16 % 16).digitChar,
      (n % 16).digitChar] := by
  have digits (m : Nat) : Nat.toDigits 16 m =
      if m < 16 then [m.digitChar] else Nat.toDigits 16 (m / 16) ++ [(m % 16).digitChar] :=
    Nat.toDigits_eq_if (by decide)
  have hzero : '0' = Nat.digitChar 0 := rfl
  simp only [Text.hex]
  rw [digits]
  split
  · rw [show n / 4096 = 0 by omega, show n / 256 = 0 by omega, show n / 16 = 0 by omega,
      Nat.mod_eq_of_lt ‹n < 16›]
    rfl
  · rw [digits]
    split
    · rw [show n / 4096 = 0 by omega, show n / 256 = 0 by omega, Nat.mod_eq_of_lt ‹n / 16 < 16›]
      rfl
    · rw [digits]
      split
      · rw [show n / 4096 = 0 by omega, show n / 256 % 16 = n / 16 / 16 by omega]
        rfl
      · rw [digits, if_pos (by omega), show n / 4096 = n / 16 / 16 / 16 by omega,
          show n / 256 % 16 = n / 16 / 16 % 16 by omega]
        rfl

theorem readUnits_unit {n : Nat} (h : n < 0x10000) (rest : List Char) :
    readUnits (unit n ++ rest) =
      (readUnits rest).map fun (units, rest) => (n :: units, rest) := by
  have hunit : unit? (n / 4096).digitChar (n / 256 % 16).digitChar (n / 16 % 16).digitChar
      (n % 16).digitChar = some n := by
    simp only [unit?, hexValue?_digitChar (show n / 4096 < 16 by omega),
      hexValue?_digitChar (Nat.mod_lt _ (by decide))]
    congr 1
    omega
  simp only [unit, hex_four h, List.cons_append, List.nil_append]
  rw [readUnits, hunit]

theorem readUnits_escapePoint (c : CodePoint) (rest : List Char) :
    readUnits (escapePoint c ++ rest) =
      (readUnits rest).map fun (units, rest) => (unitsOf c ++ units, rest) := by
  cases c with
  | surrogate n =>
    have hn : (CodePoint.surrogate n).toNat < 0x10000 := by simp only [CodePoint.toNat]; omega
    rw [escapePoint, readUnits_unit hn, unitsOf, if_pos hn]
    rfl
  | char c =>
    have hlt : c.toNat < 0x110000 := (CodePoint.char c).toNat_lt
    have hsmall (h : c.toNat < 0x10000) : unitsOf (.char c) = [c.toNat] := if_pos h
    rw [escapePoint]
    fun_cases escapeChar c with
    | case8 hq hb _ _ _ _ _ hprint =>
      have hlow : ¬c.toNat < 0x20 := by simp at hprint; omega
      rw [List.cons_append, List.nil_append, readUnits.eq_5 c rest hq (fun _ _ _ _ _ h _ => hb h)
        (fun _ _ h _ => hb h), hsmall (by simp at hprint; omega)]
      simp [hb, hlow]
    | case9 _ _ _ _ _ _ _ _ h =>
      rw [readUnits_unit h, hsmall h]
      rfl
    | case10 _ _ _ _ _ _ _ _ h n =>
      have hn : n = c.toNat - 0x10000 := rfl
      rw [List.append_assoc, readUnits_unit (by omega), readUnits_unit (by omega), unitsOf,
        CodePoint.toNat, if_neg h, ← hn]
      cases readUnits rest <;> rfl
    | _ =>
      subst_vars
      simp [readUnits, escaped?, hsmall]

theorem readUnits_flatMap (s : Text) (rest : List Char) :
    readUnits (s.flatMap escapePoint ++ '"' :: rest) = .ok (s.flatMap unitsOf, rest) := by
  induction s with
  | nil => simp [readUnits]
  | cons c s ih =>
    rw [List.flatMap_cons, List.append_assoc, readUnits_escapePoint, ih, List.flatMap_cons]
    rfl

theorem joinUnits_cons {n : Nat} {units : List Nat}
    (h : isHighSurrogate n → ∀ m, units.head? = some m → isLowSurrogate m = false) :
    joinUnits (n :: units) = .ofNat n :: joinUnits units := by
  cases units with
  | nil => rfl
  | cons m units =>
    rw [joinUnits, if_neg]
    intro hpair
    rw [Bool.and_eq_true] at hpair
    simp [h hpair.1 m rfl] at hpair

/-- A character above U+FFFF is read off its two halves. -/
theorem joinUnits_pair {c : CodePoint} (h : ¬c.toNat < 0x10000) (units : List Nat) :
    joinUnits (unitsOf c ++ units) = c :: joinUnits units := by
  have hlt := c.toNat_lt
  have hsum : 0x10000 + (0xD800 + (c.toNat - 0x10000) / 0x400 - 0xD800) * 0x400 +
      (0xDC00 + (c.toNat - 0x10000) % 0x400 - 0xDC00) = c.toNat := by omega
  rw [unitsOf, if_neg h, List.cons_append, List.cons_append, List.nil_append, joinUnits,
    if_pos (by simp [isHighSurrogate, isLowSurrogate]; omega), hsum, CodePoint.ofNat_toNat]

/-- What is written for a code point starts with the second half of a pair only if it is one. -/
theorem isLowSurrogate_head {d : CodePoint} {units : List Nat} {m : Nat}
    (h : (unitsOf d ++ units).head? = some m) :
    isLowSurrogate m = true → isLowSurrogate d.toNat = true := by
  rw [unitsOf] at h
  split at h
  · obtain rfl : d.toNat = m := by simpa using h
    exact id
  · obtain rfl : 0xD800 + (d.toNat - 0x10000) / 0x400 = m := by simpa using h
    have hlt := d.toNat_lt
    simp [isLowSurrogate]
    omega

theorem joinUnits_flatMap {s : Text} (h : s.unpaired) : joinUnits (s.flatMap unitsOf) = s := by
  induction s with
  | nil => rfl
  | cons c s ih =>
    have hs : Text.unpaired s := by cases s <;> simp_all [Text.unpaired]
    rw [List.flatMap_cons]
    by_cases hc : c.toNat < 0x10000
    · rw [unitsOf, if_pos hc, List.singleton_append, joinUnits_cons, CodePoint.ofNat_toNat, ih hs]
      intro hhigh m hm
      cases s with
      | nil => simp at hm
      | cons d s =>
        rw [List.flatMap_cons] at hm
        have hd : isLowSurrogate d.toNat = false := by
          simp only [Text.unpaired, hhigh, Bool.true_and, Bool.and_eq_true] at h
          simpa using h.1
        rw [← Bool.not_eq_true]
        exact fun hm' => by simp [isLowSurrogate_head hm hm'] at hd
    · rw [joinUnits_pair hc, ih hs]

theorem readString_renderString {s : Text} (h : s.unpaired) (rest : List Char) :
    readString (s.flatMap escapePoint ++ '"' :: rest) = .ok (s, rest) := by
  rw [readString, readUnits_flatMap]
  simp [Except.map, joinUnits_flatMap h]

/-! ## Integers -/

/-- Whether a number before `rest` ends there. -/
def endsNumber (rest : List Char) : Bool :=
  rest.head?.all fun c => !isAsciiDigit c && c ≠ '.' && c ≠ 'e' && c ≠ 'E'

theorem isAsciiDigit_of_mem_toDigits {n : Nat} {c : Char} (h : c ∈ Nat.toDigits 10 n) :
    isAsciiDigit c = true := by
  have hc : c.isDigit = true := Nat.isDigit_of_mem_toDigits (by decide) (by decide) h
  simpa [isAsciiDigit, Char.isDigit, Char.le_def] using hc

theorem head?_toDigits_append (n : Nat) (rest : List Char) :
    (Nat.toDigits 10 n ++ rest).head? = (Nat.toDigits 10 n).head? := by
  cases h : Nat.toDigits 10 n with
  | nil => exact absurd h Nat.toDigits_ne_nil
  | cons => rfl

theorem head?_toDigits {n : Nat} (h : 0 < n) : (Nat.toDigits 10 n).head? ≠ some '0' := by
  induction n using Nat.strongRecOn with
  | ind n ih =>
    rw [Nat.toDigits_eq_if (by decide)]
    split
    · simp only [List.head?_cons, ne_eq, Option.some.injEq, Nat.digitChar_eq_zero]
      omega
    · rw [head?_toDigits_append]
      exact ih (n / 10) (by omega) (by omega)

theorem digitsValue_toDigits (n : Nat) : digitsValue (Nat.toDigits 10 n) = n := by
  rw [digitsValue, Integer.ofDigits, List.foldl_map, ← Nat.ofDigitChars_eq_foldl,
    Nat.ofDigitChars_ten_toDigits]

theorem integerDigits?_toDigits (n : Nat) {rest : List Char} (h : endsNumber rest) :
    integerDigits? (Nat.toDigits 10 n ++ rest) = some (Nat.toDigits 10 n, rest) := by
  cases n with
  | zero => rfl
  | succ n =>
    have hrest : rest.head?.all (!isAsciiDigit ·) := by cases rest <;> simp_all [endsNumber]
    have htake : (Nat.toDigits 10 (n + 1) ++ rest).takeWhile isAsciiDigit =
        Nat.toDigits 10 (n + 1) := by
      rw [List.takeWhile_append_of_pos fun c hc => isAsciiDigit_of_mem_toDigits hc]
      cases rest <;> simp_all
    have hdrop : (Nat.toDigits 10 (n + 1) ++ rest).dropWhile isAsciiDigit = rest := by
      rw [List.dropWhile_append_of_pos fun c hc => isAsciiDigit_of_mem_toDigits hc]
      cases rest <;> simp_all
    rw [integerDigits?.eq_2]
    · simp [htake, hdrop, Nat.toDigits_ne_nil]
    · intro rest' hzero
      apply head?_toDigits (Nat.succ_pos n)
      rw [← head?_toDigits_append, hzero]
      rfl

theorem readNumber_toDigits (negative : Bool) (n : Nat) {rest : List Char} (h : endsNumber rest) :
    readNumber negative (Nat.toDigits 10 n ++ rest) =
      if Integer.maxDigits < (Nat.toDigits 10 n).length then .error .integerTooLong
      else .ok (.ofInt (if negative then -(n : Int) else n), rest) := by
  have hfraction : fractionDigits? rest = none := by
    cases rest with
    | nil => rfl
    | cons c rest =>
      rw [fractionDigits?.eq_2]
      rintro cs hc
      simp_all [endsNumber]
  have hpower : exponent? rest = none := by cases rest <;> simp_all [exponent?, endsNumber]
  rw [readNumber, integerDigits?_toDigits n h]
  simp [hfraction, hpower, digitsValue_toDigits]

theorem renderValue_ofInt (n : Int) : renderValue (.ofInt n) =
    if 0 ≤ n then Nat.toDigits 10 n.toNat else '-' :: Nat.toDigits 10 (-n).toNat := by
  rw [ofInt, renderValue, Number.render]
  show n.repr.toList = _
  rw [Int.repr_eq_if]
  split <;> simp [Nat.repr_eq_ofList_toDigits]

/-! ## Values -/

/-- A reading that gives `a` and leaves `rest`, unless a fault of the allowed ones has stopped it.
-/
def Recovers (allowed : ReadFault → Prop) (a : α) (rest : List Char) (r : Reading α) : Prop :=
  r = .ok (a, rest) ∨ ∃ e, allowed e ∧ r = .error e

/-- A value that reading recovers from its rendering, whatever stands behind it. -/
structure ReadsBack (allowed : ReadFault → Prop) (depth : Nat) (v : Json) : Prop where
  starts : ∃ c cs, renderValue v = c :: cs ∧ isSpace c = false ∧ c ≠ ']'
  reads : ∀ (size : Nat) (rest : List Char), (renderValue v).length ≤ size → endsNumber rest →
    Recovers allowed v rest (readValue size depth (renderValue v ++ rest))

variable {allowed : ReadFault → Prop} {depth : Nat}

theorem readValue_scalar {c : Char} (h : c ≠ '[') (h' : c ≠ '\x7b') (size depth : Nat)
    (cs : List Char) : readValue size depth (c :: cs) = readScalar c cs := by
  cases depth <;> simp [readValue, h, h']

theorem readsBack_null : ReadsBack allowed depth .null where
  starts := ⟨_, _, rfl, by decide, by decide⟩
  reads _ _ _ _ := .inl (readValue_scalar (by decide) (by decide) ..)

theorem readsBack_string {s : Text} (h : s.unpaired) : ReadsBack allowed depth (.string s) where
  starts := ⟨_, _, rfl, by decide, by decide⟩
  reads size rest _ _ := by
    left
    show readValue size depth ('"' :: (s.flatMap escapePoint ++ ['"']) ++ rest) = _
    rw [List.cons_append, List.append_assoc, readValue_scalar (by decide) (by decide), readScalar,
      if_pos rfl]
    simp [readString_renderString h]

/-- Digits are read as an integer that is not negative. -/
theorem readScalar_digit {c : Char} (h : isAsciiDigit c) (cs : List Char) :
    readScalar c cs = readNumber false (c :: cs) := by
  have hne : ∀ d : Char, isAsciiDigit d = false → c ≠ d := fun d hd hcd => by simp_all
  simp [readScalar, readNumeric, hne '"' rfl, hne 'n' rfl, hne 't' rfl, hne 'f' rfl, hne '-' rfl,
    hne 'I' rfl, hne 'N' rfl]

theorem exists_toDigits_eq_cons (n : Nat) :
    ∃ c cs, Nat.toDigits 10 n = c :: cs ∧ isAsciiDigit c = true := by
  cases hn : Nat.toDigits 10 n with
  | nil => exact absurd hn Nat.toDigits_ne_nil
  | cons c cs => exact ⟨c, cs, rfl, isAsciiDigit_of_mem_toDigits (n := n) (by simp [hn])⟩

theorem recovers_readNumber {n : Nat}
    (h : n < 10 ^ Integer.maxDigits ∨ allowed .integerTooLong) (negative : Bool)
    {rest : List Char} (hrest : endsNumber rest) :
    Recovers allowed (.ofInt (if negative then -(n : Int) else n)) rest
      (readNumber negative (Nat.toDigits 10 n ++ rest)) := by
  have hle := Nat.length_toDigits_le_iff (b := 10) (n := n) (k := Integer.maxDigits)
    (by decide) (by decide)
  rw [readNumber_toDigits negative n hrest]
  by_cases hlong : Integer.maxDigits < (Nat.toDigits 10 n).length
  · rw [if_pos hlong]
    exact .inr ⟨_, h.resolve_left (fun hn => by have := hle.2 hn; omega), rfl⟩
  · rw [if_neg hlong]
    exact .inl rfl

theorem readsBack_ofInt {n : Int}
    (h : n.natAbs < 10 ^ Integer.maxDigits ∨ allowed .integerTooLong) :
    ReadsBack allowed depth (.ofInt n) := by
  by_cases hn : 0 ≤ n
  · obtain ⟨m, rfl⟩ := Int.eq_ofNat_of_zero_le hn
    obtain ⟨c, cs, hm, hc⟩ := exists_toDigits_eq_cons m
    have hrender : renderValue (.ofInt m) = c :: cs := by
      rw [renderValue_ofInt, if_pos hn]
      exact hm
    have hne : ∀ d : Char, isAsciiDigit d = false → c ≠ d := fun d hd hcd => by simp_all
    refine ⟨⟨c, cs, hrender, ?_, hne _ rfl⟩, fun size rest _ hrest => ?_⟩
    · simp [isSpace, hne ' ' rfl, hne '\t' rfl, hne '\n' rfl, hne '\r' rfl]
    · rw [hrender, List.cons_append, readValue_scalar (hne _ rfl) (hne _ rfl), readScalar_digit hc,
        ← List.cons_append, ← hm]
      exact recovers_readNumber h false hrest
  · obtain ⟨m, hm⟩ : ∃ m : Nat, n = -m := ⟨n.natAbs, by omega⟩
    obtain ⟨c, cs, hcs, hc⟩ := exists_toDigits_eq_cons m
    have hrender : renderValue (.ofInt n) = '-' :: Nat.toDigits 10 m := by
      rw [renderValue_ofInt, if_neg hn, show (-n).toNat = m by omega]
    refine ⟨⟨_, _, hrender, by decide, by decide⟩, fun size rest _ hrest => ?_⟩
    have hword : afterWord? "Infinity".toList (Nat.toDigits 10 m ++ rest) = none := by
      have hI : 'I' ≠ c := by rintro rfl; simp [isAsciiDigit] at hc
      simp [hcs, afterWord?, hI]
    rw [hrender, List.cons_append, readValue_scalar (by decide) (by decide)]
    simp only [readScalar, readNumeric, hword]
    have h' : m < 10 ^ Integer.maxDigits ∨ allowed .integerTooLong := by
      rwa [show m = n.natAbs by omega]
    simpa [hm] using recovers_readNumber h' true hrest

/-! ## Arrays -/

@[simp] theorem renderItems_singleton (v : Json) : renderItems [v] = renderValue v := by
  simp [renderItems]

@[simp] theorem renderItems_cons_cons (v w : Json) (items : List Json) :
    renderItems (v :: w :: items) = renderValue v ++ ',' :: renderItems (w :: items) := by
  simp [renderItems]

theorem length_renderValue_le {items : List Json} {v : Json} (h : v ∈ items) :
    (renderValue v).length ≤ (renderItems items).length := by
  induction items with
  | nil => simp at h
  | cons w items ih => cases items <;> grind [renderItems_singleton, renderItems_cons_cons]

theorem length_le_renderItems {items : List Json} (h : ∀ v ∈ items, renderValue v ≠ []) :
    items.length ≤ (renderItems items).length := by
  induction items with
  | nil => simp
  | cons w items ih =>
    have hw := List.length_pos_iff.2 (h w (by simp))
    cases items <;> grind [renderItems_singleton, renderItems_cons_cons]

theorem skipSpace_cons {c : Char} (h : isSpace c = false) (cs : List Char) :
    skipSpace (c :: cs) = c :: cs := by
  simp [skipSpace, h]

/-- The first character of a rendered value is not skipped. -/
theorem ReadsBack.skipSpace_eq {v : Json} (h : ReadsBack allowed depth v) (rest : List Char) :
    skipSpace (renderValue v ++ rest) = renderValue v ++ rest := by
  obtain ⟨c, cs, hv, hc, -⟩ := h.starts
  rw [hv, List.cons_append, skipSpace_cons hc]

theorem skipSpace_renderItems {v : Json} (h : ReadsBack allowed depth v) (items : List Json)
    (rest : List Char) :
    skipSpace (renderItems (v :: items) ++ rest) = renderItems (v :: items) ++ rest := by
  cases items with
  | nil => simpa using h.skipSpace_eq rest
  | cons w items => simpa using h.skipSpace_eq (',' :: renderItems (w :: items) ++ rest)

theorem recovers_readItems {items : List Json} (h : ∀ v ∈ items, ReadsBack allowed depth v)
    {size : Nat} (hsize : ∀ v ∈ items, (renderValue v).length ≤ size) {n : Nat}
    (hn : items.length ≤ n) (hne : items ≠ []) (rest : List Char) :
    Recovers allowed items rest
      (readItems (readValue size depth) n (renderItems items ++ ']' :: rest)) := by
  induction items generalizing n with
  | nil => exact absurd rfl hne
  | cons v items ih =>
    obtain ⟨n, rfl⟩ : ∃ m, n = m + 1 := ⟨n - 1, by simp at hn; omega⟩
    have hv := h v (by simp)
    cases items with
    | nil =>
      rw [renderItems_singleton, readItems]
      obtain hread | ⟨e, he, hread⟩ := hv.reads size (']' :: rest) (hsize v (by simp)) rfl
      · simp [hread, skipSpace_cons (show isSpace ']' = false from rfl), Recovers]
      · simp [hread, Recovers, he]
    | cons w items =>
      have hrest := ih (fun u hu => h u (by simp [hu])) (fun u hu => hsize u (by simp [hu]))
        (n := n) (by simpa using hn) (by simp)
      have hskip := skipSpace_renderItems (h w (by simp)) items (']' :: rest)
      rw [renderItems_cons_cons, readItems, List.append_assoc, List.cons_append]
      obtain hread | ⟨e, he, hread⟩ :=
        hv.reads size (',' :: (renderItems (w :: items) ++ ']' :: rest)) (hsize v (by simp)) rfl
      · obtain hrest | ⟨e, he, hrest⟩ := hrest <;>
          simp_all [skipSpace_cons (show isSpace ',' = false from rfl), Recovers]
      · simp [hread, Recovers, he]

/-- An array comes back if its items do. -/
theorem readsBack_array {items : List Json} (h : ∀ v ∈ items, ReadsBack allowed depth v) :
    ReadsBack allowed (depth + 1) (.array items) where
  starts := ⟨_, _, rfl, by decide, by decide⟩
  reads size rest hsize _ := by
    have hrender : renderValue (.array items) ++ rest =
        '[' :: (renderItems items ++ ']' :: rest) := by
      simp [renderValue]
    have hlength : (renderItems items).length ≤ size := by
      simp [renderValue] at hsize; omega
    rw [hrender, readValue, if_pos rfl, readArray]
    cases items with
    | nil => simp [renderItems, skipSpace_cons (show isSpace ']' = false from rfl), Recovers]
    | cons v items =>
      obtain ⟨c, cs, hv, hspace, hbracket⟩ := (h v (by simp)).starts
      have hcount : (v :: items).length ≤ size := by
        refine Nat.le_trans (length_le_renderItems fun w hw => ?_) hlength
        obtain ⟨_, _, hw, -⟩ := (h w hw).starts
        simp [hw]
      have hitems := recovers_readItems h
        (fun w hw => Nat.le_trans (length_renderValue_le hw) hlength) hcount (by simp) rest
      rw [skipSpace_renderItems (h v (by simp))]
      split
      · rename_i hclose
        cases items <;> simp [hv, hbracket] at hclose
      · obtain hitems | ⟨e, he, hitems⟩ := hitems <;> simp [Recovers, *]

/-! ## Objects -/

@[simp] theorem renderMembers_singleton (k : Text) (v : Json) :
    renderMembers [(k, v)] = renderString k ++ ':' :: renderValue v := by
  simp [renderMembers]

@[simp] theorem renderMembers_cons_cons (k : Text) (v : Json) (m : Text × Json)
    (members : List (Text × Json)) : renderMembers ((k, v) :: m :: members) =
      renderString k ++ ':' :: renderValue v ++ ',' :: renderMembers (m :: members) := by
  simp [renderMembers]

theorem exists_renderMembers_eq (m : Text × Json) (members : List (Text × Json)) :
    ∃ cs, renderMembers (m :: members) = '"' :: cs := by
  obtain ⟨k, v⟩ := m
  cases members <;> simp [renderString]

theorem length_renderMember_le {members : List (Text × Json)} {m : Text × Json}
    (h : m ∈ members) : (renderValue m.2).length ≤ (renderMembers members).length := by
  induction members with
  | nil => simp at h
  | cons n members ih => cases members <;> grind [renderMembers_singleton, renderMembers_cons_cons]

theorem length_le_renderMembers (members : List (Text × Json)) :
    members.length ≤ (renderMembers members).length := by
  induction members with
  | nil => simp
  | cons n members ih => cases members <;> grind [renderMembers_singleton, renderMembers_cons_cons]

theorem readKey_renderString {k : Text} (hk : k.unpaired) {v : Json}
    (hv : ReadsBack allowed depth v) (rest : List Char) :
    readKey (renderString k ++ ':' :: (renderValue v ++ rest)) =
      .ok (k, renderValue v ++ rest) := by
  have hstring : renderString k ++ ':' :: (renderValue v ++ rest) =
      '"' :: (k.flatMap escapePoint ++ '"' :: ':' :: (renderValue v ++ rest)) := by
    simp [renderString]
  rw [hstring, readKey, readString_renderString hk]
  simp [skipSpace_cons (show isSpace ':' = false from rfl), hv.skipSpace_eq]

theorem recovers_readMembers {members : List (Text × Json)}
    (hk : ∀ m ∈ members, Text.unpaired m.1) (hv : ∀ m ∈ members, ReadsBack allowed depth m.2)
    {size : Nat} (hsize : ∀ m ∈ members, (renderValue m.2).length ≤ size) {n : Nat}
    (hn : members.length ≤ n) (hne : members ≠ []) (rest : List Char) :
    Recovers allowed members rest
      (readMembers (readValue size depth) n (renderMembers members ++ '\x7d' :: rest)) := by
  induction members generalizing n with
  | nil => exact absurd rfl hne
  | cons m members ih =>
    obtain ⟨k, v⟩ := m
    obtain ⟨n, rfl⟩ : ∃ m, n = m + 1 := ⟨n - 1, by simp at hn; omega⟩
    have hkey := readKey_renderString (hk (k, v) (by simp)) (hv (k, v) (by simp))
    have hvalue := (hv (k, v) (by simp)).reads size
    cases members with
    | nil =>
      rw [renderMembers_singleton, readMembers, List.append_assoc, List.cons_append, hkey]
      obtain hread | ⟨e, he, hread⟩ := hvalue ('\x7d' :: rest) (hsize _ (by simp)) rfl
      · simp [hread, skipSpace_cons (show isSpace '\x7d' = false from rfl), Recovers]
      · simp [hread, Recovers, he]
    | cons m members =>
      have hrest := ih (fun m hm => hk m (by simp [hm])) (fun m hm => hv m (by simp [hm]))
        (fun m hm => hsize m (by simp [hm])) (n := n) (by simpa using hn) (by simp)
      have hskip : skipSpace (renderMembers (m :: members) ++ '\x7d' :: rest) =
          renderMembers (m :: members) ++ '\x7d' :: rest := by
        obtain ⟨cs, hcs⟩ := exists_renderMembers_eq m members
        rw [hcs, List.cons_append, skipSpace_cons rfl]
      rw [renderMembers_cons_cons, readMembers]
      simp only [List.append_assoc, List.cons_append, hkey]
      obtain hread | ⟨e, he, hread⟩ :=
        hvalue (',' :: (renderMembers (m :: members) ++ '\x7d' :: rest)) (hsize _ (by simp)) rfl
      · obtain hrest | ⟨e, he, hrest⟩ := hrest <;>
          simp_all [skipSpace_cons (show isSpace ',' = false from rfl), Recovers]
      · simp [hread, Recovers, he]

theorem put_of_notMem {k : Text} (v : Json) {members : List (Text × Json)}
    (h : ∀ m ∈ members, m.1 ≠ k) : put k v members = members ++ [(k, v)] := by
  induction members with
  | nil => rfl
  | cons m members ih => simp_all [put]

/-- Members with keys of their own make an object as they stand. -/
theorem ofMembers_eq {members : List (Text × Json)} (h : (members.map Prod.fst).Nodup) :
    ofMembers members = .object members := by
  have hfold : ∀ (acc rest : List (Text × Json)), ((acc ++ rest).map Prod.fst).Nodup →
      rest.foldl (fun acc m => put m.1 m.2 acc) acc = acc ++ rest := by
    intro acc rest hnodup
    induction rest generalizing acc with
    | nil => simp
    | cons m rest ih =>
      obtain ⟨k, v⟩ := m
      have hk : ∀ m ∈ acc, m.1 ≠ k := by
        intro m hm heq
        simp only [List.map_append, List.map_cons, List.nodup_append] at hnodup
        exact hnodup.2.2 m.1 (List.mem_map_of_mem hm) k (by simp) heq
      simp only [List.foldl_cons, put_of_notMem v hk]
      rw [ih _ (by simpa using hnodup), List.append_assoc, List.singleton_append]
  exact congrArg Json.object (hfold [] members (by simpa using h))

/-- An object comes back if its keys are told apart and its values come back. -/
theorem readsBack_object {members : List (Text × Json)} (hnodup : (members.map Prod.fst).Nodup)
    (hk : ∀ m ∈ members, Text.unpaired m.1) (hv : ∀ m ∈ members, ReadsBack allowed depth m.2) :
    ReadsBack allowed (depth + 1) (.object members) where
  starts := ⟨_, _, rfl, by decide, by decide⟩
  reads size rest hsize _ := by
    have hrender : renderValue (.object members) ++ rest =
        '\x7b' :: (renderMembers members ++ '\x7d' :: rest) := by
      simp [renderValue]
    have hlength : (renderMembers members).length ≤ size := by
      simp [renderValue] at hsize; omega
    rw [hrender, readValue, if_neg (by decide), if_pos rfl, readObject]
    cases members with
    | nil =>
      simp [renderMembers, skipSpace_cons (show isSpace '\x7d' = false from rfl), Recovers]
    | cons m members =>
      have hmembers := recovers_readMembers hk hv
        (fun m hm => Nat.le_trans (length_renderMember_le hm) hlength)
        (Nat.le_trans (length_le_renderMembers _) hlength) (by simp) rest
      obtain ⟨cs, hcs⟩ := exists_renderMembers_eq m members
      rw [hcs, List.cons_append] at hmembers ⊢
      rw [skipSpace_cons rfl]
      obtain hmembers | ⟨e, he, hmembers⟩ := hmembers <;>
        simp [ofMembers_eq hnodup, Recovers, *]

/-- A document that holds a rendered value and nothing else. -/
theorem readWithin_renderValue {depth : Nat} {v : Json} (h : ReadsBack allowed depth v) :
    readWithin depth (renderValue v) = .ok v ∨
      ∃ e, allowed e ∧ readWithin depth (renderValue v) = .error e := by
  have hskip := h.skipSpace_eq []
  have hread := h.reads (renderValue v).length [] (Nat.le_refl _) rfl
  rw [List.append_nil] at hskip hread
  rw [readWithin, hskip]
  obtain hread | ⟨e, he, hread⟩ := hread
  · left
    simp [hread, skipSpace]
  · right
    exact ⟨e, he, by rw [hread]⟩

end Json
end TagsFile
