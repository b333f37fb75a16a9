import Mathlib
import TagsFile.Text.Utf8

/-!
# Encoded characters read back

The bytes of a character are read as that character, whatever follows them, and they can be told
apart from the middle of one: only their first byte is no continuation byte. So bytes that encode
characters can be cut between two characters and decoded piece by piece.

## Main definitions

* `isContinuation`, `isBoundary`: bytes inside of a character, offsets between characters.
* `bytesOf`: the bytes of a list of characters.
-/

namespace TagsFile.Text.Utf8

/-! ## One character -/

theorem toNat_ofNat_of_lt {n : Nat} (h : n < 256) : (UInt8.ofNat n).toNat = n := by
  simp [Nat.mod_eq_of_lt h]

theorem step_ascii {n : Nat} (h : n < 0x80) (bytes : List UInt8) :
    step (UInt8.ofNat n) bytes = (some (Char.ofNat n), bytes) := by
  have h' : UInt8.ofNat n < 0x80 := by
    rw [UInt8.lt_iff_toNat_lt, toNat_ofNat_of_lt (by omega)]; simpa using h
  rw [step, if_pos h', toNat_ofNat_of_lt (by omega)]

theorem step_lead {n : Nat} {l : Lead} (hn : 0x80 ≤ n) (hn' : n < 256)
    (hl : lead? (UInt8.ofNat n) = some l) (bytes : List UInt8) :
    step (UInt8.ofNat n) bytes = continuation l.more l.low l.high l.bits bytes := by
  have h : ¬UInt8.ofNat n < 0x80 := by
    rw [UInt8.lt_iff_toNat_lt, toNat_ofNat_of_lt hn']
    simp; omega
  rw [step, if_neg h, hl]

/-- A continuation byte between the bounds is taken. -/
theorem continuation_cons {more n : Nat} {low high : UInt8} (bits : Nat) (bytes : List UInt8)
    (hn : n < 256) (hlow : low.toNat ≤ n) (hhigh : n ≤ high.toNat) :
    continuation (more + 1) low high bits (UInt8.ofNat n :: bytes) =
      continuation more 0x80 0xBF (bits * 64 + (n - 0x80)) bytes := by
  have h₁ : low ≤ UInt8.ofNat n := by
    rw [UInt8.le_iff_toNat_le, toNat_ofNat_of_lt hn]; exact hlow
  have h₂ : UInt8.ofNat n ≤ high := by
    rw [UInt8.le_iff_toNat_le, toNat_ofNat_of_lt hn]; exact hhigh
  rw [continuation, toNat_ofNat_of_lt hn]
  simp [h₁, h₂]

theorem continuation_tail {more n : Nat} (bits : Nat) (bytes : List UInt8) (hn : n < 64) :
    continuation (more + 1) 0x80 0xBF bits (UInt8.ofNat (n + 0x80) :: bytes) =
      continuation more 0x80 0xBF (bits * 64 + n) bytes := by
  rw [continuation_cons bits bytes (by omega) (by simp) (by simp; omega)]
  simp

theorem step_two {v : Nat} (h : 0x80 ≤ v) (h' : v < 0x800) (rest : List UInt8) :
    step (UInt8.ofNat (v / 64 + 0xC0)) (UInt8.ofNat (v % 64 + 0x80) :: rest) =
      (some (Char.ofNat v), rest) := by
  have hl : lead? (UInt8.ofNat (v / 64 + 0xC0)) = some ⟨1, 0x80, 0xBF, v / 64⟩ := by
    rw [lead?, toNat_ofNat_of_lt (by omega)]
    simp; omega
  rw [step_lead (by omega) (by omega) hl, continuation_tail _ _ (by omega), continuation]
  simp; congr 1; omega

theorem step_three {v : Nat} (h : 0x800 ≤ v) (h' : v < 0x10000) (hs : ¬(0xD800 ≤ v ∧ v < 0xE000))
    (rest : List UInt8) :
    step (UInt8.ofNat (v / 4096 + 0xE0))
        (UInt8.ofNat (v / 64 % 64 + 0x80) :: UInt8.ofNat (v % 64 + 0x80) :: rest) =
      (some (Char.ofNat v), rest) := by
  -- the bounds of the second byte depend on the first, so as to leave out the surrogates
  obtain ⟨l, hl, hmore, hbits, hlow, hhigh⟩ : ∃ l,
      lead? (UInt8.ofNat (v / 4096 + 0xE0)) = some l ∧ l.more = 2 ∧ l.bits = v / 4096 ∧
        l.low.toNat ≤ v / 64 % 64 + 0x80 ∧ v / 64 % 64 + 0x80 ≤ l.high.toNat := by
    rw [lead?, toNat_ofNat_of_lt (by omega), if_neg (by omega), if_neg (by omega)]
    split
    · exact ⟨_, rfl, rfl, by simp; omega, by simp; omega, by simp; omega⟩
    · split
      · exact ⟨_, rfl, rfl, by simp; omega, by simp, by simp; omega⟩
      · rw [if_pos (by omega)]
        exact ⟨_, rfl, rfl, by simp, by simp, by simp; omega⟩
  rw [step_lead (by omega) (by omega) hl, hmore, hbits, continuation_cons _ _ (by omega) hlow hhigh,
    continuation_tail _ _ (by omega), continuation]
  congr 3; omega

theorem step_four {v : Nat} (h : 0x10000 ≤ v) (h' : v < 0x110000) (rest : List UInt8) :
    step (UInt8.ofNat (v / 262144 + 0xF0))
        (UInt8.ofNat (v / 4096 % 64 + 0x80) :: UInt8.ofNat (v / 64 % 64 + 0x80) ::
          UInt8.ofNat (v % 64 + 0x80) :: rest) = (some (Char.ofNat v), rest) := by
  obtain ⟨l, hl, hmore, hbits, hlow, hhigh⟩ : ∃ l,
      lead? (UInt8.ofNat (v / 262144 + 0xF0)) = some l ∧ l.more = 3 ∧ l.bits = v / 262144 ∧
        l.low.toNat ≤ v / 4096 % 64 + 0x80 ∧ v / 4096 % 64 + 0x80 ≤ l.high.toNat := by
    rw [lead?, toNat_ofNat_of_lt (by omega), if_neg (by omega), if_neg (by omega),
      if_neg (by omega), if_neg (by omega), if_neg (by omega)]
    split
    · exact ⟨_, rfl, rfl, by simp; omega, by simp; omega, by simp; omega⟩
    · split
      · exact ⟨_, rfl, rfl, by simp, by simp, by simp; omega⟩
      · rw [if_pos (by omega)]
        exact ⟨_, rfl, rfl, by simp; omega, by simp, by simp; omega⟩
  rw [step_lead (by omega) (by omega) hl, hmore, hbits, continuation_cons _ _ (by omega) hlow hhigh,
    continuation_tail _ _ (by omega), continuation_tail _ _ (by omega), continuation]
  congr 3; omega

/-- Whether a byte only follows others of its character. -/
def isContinuation (b : UInt8) : Bool := 0x80 ≤ b && b < 0xC0

theorem isContinuation_ofNat {n : Nat} (hn : n < 256) :
    isContinuation (UInt8.ofNat n) = true ↔ 0x80 ≤ n ∧ n < 0xC0 := by
  simp [isContinuation, UInt8.lt_iff_toNat_lt, UInt8.le_iff_toNat_le, Nat.mod_eq_of_lt hn]

/-- The bytes of a character: how they start and go on, and that they read back. -/
theorem utf8EncodeChar_cases (c : Char) : ∃ b bs, String.utf8EncodeChar c = b :: bs ∧
    isContinuation b = false ∧ (∀ x ∈ bs, isContinuation x = true) ∧
      ∀ rest, step b (bs ++ rest) = (some c, rest) := by
  have hvalid : c.toNat < 0xD800 ∨ 0xDFFF < c.toNat ∧ c.toNat < 0x110000 := c.valid
  have hval : c.val.toNat = c.toNat := rfl
  have hchar : Char.ofNat c.toNat = c := Char.ofNat_toNat c
  have tail : ∀ ns : List Nat, (∀ n ∈ ns, n < 64) →
      ∀ x ∈ ns.map fun n => UInt8.ofNat (n + 0x80), isContinuation x = true := by
    intro ns hns x hx
    obtain ⟨n, hn, rfl⟩ := List.mem_map.1 hx
    exact (isContinuation_ofNat (by have := hns n hn; omega)).2 (by have := hns n hn; omega)
  have first : ∀ n, n < 256 → (n < 0x80 ∨ 0xC0 ≤ n) → isContinuation (UInt8.ofNat n) = false := by
    intro n hn hn'
    rw [← Bool.not_eq_true, isContinuation_ofNat hn]; omega
  rw [String.utf8EncodeChar, hval]
  split
  · refine ⟨_, _, rfl, first _ (by omega) (by omega), by simp, fun rest => ?_⟩
    rw [List.nil_append, step_ascii (by omega), hchar]
  · split
    · rw [Nat.mod_eq_of_lt (show c.toNat / 64 < 0x20 by omega)]
      refine ⟨_, _, rfl, first _ (by omega) (by omega), tail [_] (by simp [Nat.mod_lt]),
        fun rest => ?_⟩
      rw [List.cons_append, List.nil_append, step_two (by omega) (by omega), hchar]
    · split
      · rw [Nat.mod_eq_of_lt (show c.toNat / 4096 < 0x10 by omega)]
        refine ⟨_, _, rfl, first _ (by omega) (by omega), tail [_, _] (by simp [Nat.mod_lt]),
          fun rest => ?_⟩
        rw [List.cons_append, List.cons_append, List.nil_append,
          step_three (by omega) (by omega) (by omega), hchar]
      · rw [Nat.mod_eq_of_lt (show c.toNat / 262144 < 0x08 by omega)]
        refine ⟨_, _, rfl, first _ (by omega) (by omega), tail [_, _, _] (by simp [Nat.mod_lt]),
          fun rest => ?_⟩
        rw [List.cons_append, List.cons_append, List.cons_append, List.nil_append,
          step_four (by omega) (by omega), hchar]

/-! ## Many characters -/

/-- The bytes of some characters. -/
def bytesOf (cs : List Char) : List UInt8 := cs.flatMap String.utf8EncodeChar

theorem encode_eq_bytesOf (s : String) : encode s = bytesOf s.toList := rfl

@[simp] theorem bytesOf_nil : bytesOf [] = [] := rfl

@[simp] theorem bytesOf_cons (c : Char) (cs : List Char) :
    bytesOf (c :: cs) = String.utf8EncodeChar c ++ bytesOf cs := rfl

@[simp] theorem bytesOf_append (cs ds : List Char) :
    bytesOf (cs ++ ds) = bytesOf cs ++ bytesOf ds := List.flatMap_append

/-- Characters are decoded whatever follows their bytes. -/
theorem decodeLossy_bytesOf_append (cs : List Char) (rest : List UInt8) :
    decodeLossy (bytesOf cs ++ rest) = cs ++ decodeLossy rest := by
  induction cs with
  | nil => rfl
  | cons c cs ih =>
    obtain ⟨b, bs, hc, -, -, hstep⟩ := utf8EncodeChar_cases c
    rw [bytesOf_cons, hc, List.append_assoc, List.cons_append, decodeLossy, hstep]
    simp [ih]

@[simp] theorem decodeLossy_bytesOf (cs : List Char) : decodeLossy (bytesOf cs) = cs := by
  have h := decodeLossy_bytesOf_append cs []
  simpa [decodeLossy] using h

@[simp] theorem decode?_bytesOf (cs : List Char) : decode? (bytesOf cs) = some cs := by
  induction cs with
  | nil => simp [decode?]
  | cons c cs ih =>
    obtain ⟨b, bs, hc, -, -, hstep⟩ := utf8EncodeChar_cases c
    rw [bytesOf_cons, hc, List.cons_append, decode?, hstep]
    simp [ih]

/-! ## Boundaries -/

/-- Whether an offset lies between two characters, at an end, or beyond. -/
def isBoundary (bytes : List UInt8) (k : Nat) : Bool := bytes[k]?.all (!isContinuation ·)

theorem isBoundary_drop (bytes : List UInt8) (k n : Nat) :
    isBoundary (bytes.drop k) n = isBoundary bytes (k + n) := by
  rw [isBoundary, isBoundary, List.getElem?_drop]

theorem isBoundary_of_length_le {bytes : List UInt8} {k : Nat} (h : bytes.length ≤ k) :
    isBoundary bytes k = true := by
  simp [isBoundary, h]

/-- The bytes of characters, cut at a boundary, are the bytes of characters on both sides. -/
theorem exists_split_of_isBoundary {cs : List Char} {k : Nat} (h : isBoundary (bytesOf cs) k) :
    ∃ as bs, cs = as ++ bs ∧ (bytesOf cs).take k = bytesOf as ∧
      (bytesOf cs).drop k = bytesOf bs := by
  induction cs generalizing k with
  | nil => exact ⟨[], [], by simp⟩
  | cons c cs ih =>
    obtain ⟨b, bs, hc, -, hbs, -⟩ := utf8EncodeChar_cases c
    have hlength : (String.utf8EncodeChar c).length = bs.length + 1 := by simp [hc]
    rcases Nat.lt_or_ge k (bs.length + 1) with hk | hk
    · -- an offset inside of a character is at its start
      cases k with
      | zero => exact ⟨[], c :: cs, by simp⟩
      | succ k =>
        have hk' : k < bs.length := by omega
        have hcont := hbs bs[k] (List.getElem_mem hk')
        simp [isBoundary, hc, List.getElem?_append_left, hk', hcont] at h
    · obtain ⟨n, rfl⟩ : ∃ n, k = (String.utf8EncodeChar c).length + n :=
        ⟨k - (bs.length + 1), by omega⟩
      rw [← isBoundary_drop, bytesOf_cons, List.drop_left] at h
      obtain ⟨as, ds, hcs, htake, hdrop⟩ := ih h
      refine ⟨c :: as, ds, by simp [hcs], ?_, ?_⟩
      · rw [bytesOf_cons, List.take_length_add_append, htake]; rfl
      · rw [bytesOf_cons, List.drop_length_add_append, hdrop]

end TagsFile.Text.Utf8
