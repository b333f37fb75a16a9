import TagsFile.Proofs.FileName

/-!
# Spellings

Different texts may stand for the same bytes, and the file system spells them in one way. This
changes nothing in the ASCII characters of a text, so that the pieces of a path are spelled one by
one.

## Main definitions

* `Text.respelled`: a text in the spelling of the file system.

## Main statements

* `Text.eq_of_asFileName?_ascii`: a text that is spelled with ASCII characters is spelled so.
* `pieces_respelled`: the pieces of a path in the spelling of the file system.
-/

namespace TagsFile

namespace Text

/-! ## ASCII characters -/

namespace Utf8

/-- What continuation bytes between two bounds add to the bits of a first byte. -/
theorem exists_of_continuation {more bits : Nat} {low high : UInt8} {bytes : List UInt8} {c : Char}
    (h : (continuation (more + 1) low high bits bytes).1 = some c) :
    ∃ b bytes', bytes = b :: bytes' ∧ low.toNat ≤ b.toNat ∧ b.toNat ≤ high.toNat ∧
      (continuation more 0x80 0xBF (bits * 64 + (b.toNat - 0x80)) bytes').1 = some c := by
  cases bytes with
  | nil => simp [continuation] at h
  | cons b bytes =>
    rw [continuation] at h
    split at h
    · rename_i hb
      rw [Bool.and_eq_true, decide_eq_true_iff, decide_eq_true_iff, UInt8.le_iff_toNat_le,
        UInt8.le_iff_toNat_le] at hb
      exact ⟨b, bytes, rfl, hb.1, hb.2, h⟩
    · cases h

theorem toNat_ofNat {v : Nat} (hv : v < 0xD800 ∨ 0xDFFF < v ∧ v < 0x110000) :
    (Char.ofNat v).toNat = v := by
  rw [Char.ofNat, dif_pos hv]
  rfl

theorem toNat_of_continuation {bits : Nat} {low high : UInt8} {bytes : List UInt8} {c : Char}
    (h : (continuation 0 low high bits bytes).1 = some c)
    (hbits : bits < 0xD800 ∨ 0xDFFF < bits ∧ bits < 0x110000) : c.toNat = bits := by
  rw [continuation] at h
  cases h
  exact toNat_ofNat hbits

/-- The first bytes of characters, by how many bytes follow. The second byte keeps the bits away
from those of shorter characters and of surrogates. -/
theorem lead?_cases {b : UInt8} {l : Lead} (h : lead? b = some l) :
    l.more = 1 ∧ 2 ≤ l.bits ∧ l.bits < 32 ∨
    l.more = 2 ∧ 160 ≤ l.bits * 64 + l.low.toNat ∧
      (l.bits * 64 + l.high.toNat < 992 ∨ 1024 ≤ l.bits * 64 + l.low.toNat ∧ l.bits < 16) ∨
    l.more = 3 ∧ 144 ≤ l.bits * 64 + l.low.toNat ∧ l.bits * 64 + l.high.toNat < 400 := by
  simp only [lead?] at h
  repeat' split at h
  · cases h
  · cases h
    exact .inl ⟨rfl, by dsimp only; omega, by dsimp only; omega⟩
  · cases h
    exact .inr (.inl ⟨rfl, by decide, .inl (by decide)⟩)
  · cases h
    exact .inr (.inl ⟨rfl, by decide, .inl (by decide)⟩)
  · cases h
    refine .inr (.inl ⟨rfl, ?_, ?_⟩) <;> simp only [UInt8.reduceToNat] <;> omega
  · cases h
    exact .inr (.inr ⟨rfl, by decide, by decide⟩)
  · cases h
    refine .inr (.inr ⟨rfl, ?_, ?_⟩) <;> simp only [UInt8.reduceToNat] <;> omega
  · cases h
    exact .inr (.inr ⟨rfl, by decide, by decide⟩)
  · cases h

/-- A byte that is no ASCII character starts none. -/
theorem le_toNat_of_step {b : UInt8} {bytes : List UInt8} {c : Char} (hb : ¬b < 0x80)
    (h : (step b bytes).1 = some c) : 0x80 ≤ c.toNat := by
  rw [step, if_neg hb] at h
  split at h
  · cases h
  · rename_i l hl
    have hmin : 128 ≤ l.low.toNat := UInt8.le_iff_toNat_le.1 (le_low_of_lead? hl)
    obtain ⟨hmore, hbits⟩ | ⟨hmore, hbits⟩ | ⟨hmore, hbits⟩ := lead?_cases hl
    · rw [hmore] at h
      obtain ⟨b₁, _, rfl, hlow, -, h⟩ := exists_of_continuation h
      have hb₁ := b₁.toNat_lt
      rw [toNat_of_continuation h (by omega)]
      omega
    · rw [hmore] at h
      obtain ⟨b₁, _, rfl, hlow, hhigh, h⟩ := exists_of_continuation h
      obtain ⟨b₂, _, rfl, hlow₂, hhigh₂, h⟩ := exists_of_continuation h
      have hb₁ := b₁.toNat_lt
      simp only [UInt8.reduceToNat] at hlow₂ hhigh₂
      rw [toNat_of_continuation h (by omega)]
      omega
    · rw [hmore] at h
      obtain ⟨b₁, _, rfl, hlow, hhigh, h⟩ := exists_of_continuation h
      obtain ⟨b₂, _, rfl, hlow₂, hhigh₂, h⟩ := exists_of_continuation h
      obtain ⟨b₃, _, rfl, hlow₃, hhigh₃, h⟩ := exists_of_continuation h
      simp only [UInt8.reduceToNat] at hlow₂ hhigh₂ hlow₃ hhigh₃
      rw [toNat_of_continuation h (by omega)]
      omega

/-- An ASCII character stands for itself. -/
theorem eq_of_step_ascii {b : UInt8} {bytes : List UInt8} {c : Char} (hc : c.toNat < 0x80)
    (h : (step b bytes).1 = some c) : b = UInt8.ofNat c.toNat := by
  by_cases hb : b < 0x80
  · rw [step, if_pos hb] at h
    cases h
    have hsmall := UInt8.lt_iff_toNat_lt.1 hb
    simp only [UInt8.reduceToNat] at hsmall
    rw [toNat_ofNat (by omega), UInt8.ofNat_toNat]
  · have := le_toNat_of_step hb h
    omega

theorem continuation_suffix (more : Nat) (low high : UInt8) (bits : Nat) (bytes : List UInt8) :
    (continuation more low high bits bytes).2 <:+ bytes := by
  fun_induction continuation more low high bits bytes with
  | case1 | case3 | case4 => exact List.suffix_rfl
  | case2 more low high bits b bytes hb ih => exact ih.trans (List.suffix_cons b bytes)

theorem step_suffix (b : UInt8) (bytes : List UInt8) : (step b bytes).2 <:+ bytes := by
  rw [step]
  split
  · exact List.suffix_rfl
  · split
    · exact List.suffix_rfl
    · exact continuation_suffix ..

end Utf8

theorem ascii_mem_of_mem_ofFileBytes {c : Char} (hc : c.toNat < 0x80) {bytes : List UInt8}
    (h : .char c ∈ ofFileBytes bytes) : UInt8.ofNat c.toNat ∈ bytes := by
  fun_induction ofFileBytes bytes with
  | case1 => exact absurd h List.not_mem_nil
  | case2 b bytes first hstep ih =>
    obtain heq | hmem := List.mem_cons.1 h
    · cases heq
      rw [Utf8.eq_of_step_ascii hc hstep]
      exact List.mem_cons_self
    · exact List.mem_cons_of_mem b ((Utf8.step_suffix b bytes).subset (ih hmem))
  | case3 b bytes hstep ih =>
    obtain heq | hmem := List.mem_cons.1 h
    · cases heq
    · exact List.mem_cons_of_mem b (ih hmem)

/-! ## Respelled texts -/

theorem asFileName?_char_cons (c : Char) (t : Text) :
    asFileName? (.char c :: t) = (asFileName? t).map (.char c :: ·) := by
  rw [asFileName?, ← List.singleton_append, fileBytes?_append, fileBytes?_singleton, asFileName?]
  cases fileBytes? t with
  | none => rfl
  | some bytes => simpa [CodePoint.fileBytes?] using ofFileBytes_bytesOf_append [c] bytes

theorem eq_of_asFileName?_ascii {t t' : Text} (h : t.asFileName? = some t')
    (hascii : ∀ c ∈ t', c.toNat < 0x80) : t = t' := by
  induction t generalizing t' with
  | nil => simpa [asFileName?_nil] using h
  | cons c t ih =>
    cases c with
    | char c =>
      rw [asFileName?_char_cons] at h
      obtain ⟨rest, hrest, rfl⟩ := Option.map_eq_some_iff.1 h
      rw [ih hrest fun d hd => hascii d (by simp [hd])]
    | surrogate n =>
      -- its byte starts no ASCII character
      obtain ⟨bytes, hbytes, rfl⟩ := Option.map_eq_some_iff.1 h
      rw [← List.singleton_append, fileBytes?_append, fileBytes?_singleton] at hbytes
      obtain ⟨first, hfirst, hmap⟩ := Option.bind_eq_some_iff.1 hbytes
      obtain ⟨rest, -, rfl⟩ := Option.map_eq_some_iff.1 hmap
      obtain ⟨hn, rfl⟩ : (0x480 ≤ n.val ∧ n.val < 0x500) ∧ [UInt8.ofNat (n - 0x400)] = first := by
        simpa [CodePoint.fileBytes?] using hfirst
      have hhigh : ¬UInt8.ofNat (n - 0x400) < 0x80 := by
        rw [UInt8.lt_iff_toNat_lt, Utf8.toNat_ofNat_of_lt (by omega)]
        simp only [UInt8.reduceToNat]
        omega
      rw [List.singleton_append, ofFileBytes] at hascii
      split at hascii
      · rename_i c hstep
        have hc := hascii (.char c) (by simp)
        have hmin := Utf8.le_toNat_of_step hhigh hstep
        rw [CodePoint.toNat] at hc
        omega
      · have hstray := hascii (.ofStrayByte (UInt8.ofNat (n - 0x400))) (by simp)
        rw [CodePoint.ofStrayByte, CodePoint.toNat] at hstray
        omega

/-- A text in the spelling of the file system, if it stands for bytes. -/
def respelled (t : Text) : Text := t.asFileName?.getD t

theorem respelled_eq_self {t : Text} (h : t.asFileName? = some t) : t.respelled = t := by
  rw [respelled, h]
  rfl

theorem map_respelled {parts : List Text} (h : ∀ part ∈ parts, part.asFileName? = some part) :
    parts.map respelled = parts := by
  refine (List.map_congr_left fun part hpart => ?_).trans (List.map_id parts)
  exact respelled_eq_self (h part hpart)

theorem asFileName?_eq_respelled {t t' : Text} (h : t.asFileName? = some t') :
    t' = t.respelled := by
  rw [respelled, h]
  rfl

theorem respelled_eq_ofString {t : Text} {s : String} (h : ∀ c ∈ s.toList, c.toNat < 0x80) :
    t.respelled = s ↔ t = s := by
  constructor
  · intro heq
    rw [respelled] at heq
    cases hname : t.asFileName? with
    | none => simpa [hname] using heq
    | some t' =>
      obtain rfl : t' = ofString s := by simpa [hname] using heq
      refine eq_of_asFileName?_ascii hname fun c hc => ?_
      obtain ⟨d, hd, rfl⟩ := List.mem_map.1 hc
      exact h d hd
  · rintro rfl
    exact respelled_eq_self (asFileName?_ofString s)

/-- The names that lead nowhere or up are spelled in one way. -/
theorem respelled_plain {name : Text} (h : name ≠ "" ∧ name ≠ "." ∧ name ≠ "..") :
    name.respelled ≠ "" ∧ name.respelled ≠ "." ∧ name.respelled ≠ ".." := by
  rw [Ne, Ne, Ne, respelled_eq_ofString (by simp), respelled_eq_ofString (by simp),
    respelled_eq_ofString (by simp)]
  exact h

theorem slash_notMem_respelled {t : Text} (h : .char '/' ∉ t) : .char '/' ∉ t.respelled := by
  rw [respelled]
  cases hbytes : t.fileBytes? with
  | none => simpa [asFileName?, hbytes] using h
  | some bytes =>
    intro hmem
    have hmem : CodePoint.char '/' ∈ ofFileBytes bytes := by simpa [asFileName?, hbytes] using hmem
    exact ascii_notMem_fileBytes? (by decide) hbytes h
      (ascii_mem_of_mem_ofFileBytes (by decide) hmem)

theorem asFileName?_join {parts : List Text} (hne : parts ≠ []) {t : Text}
    (h : (join "/" parts).asFileName? = some t) :
    t = join "/" (parts.map respelled) ∧
      ∀ part ∈ parts, part.asFileName? = some part.respelled := by
  induction parts generalizing t with
  | nil => exact absurd rfl hne
  | cons a parts ih =>
    cases parts with
    | nil =>
      rw [join_singleton] at h
      rw [List.map_singleton, join_singleton, ← asFileName?_eq_respelled h]
      simpa using asFileName?_eq_respelled h ▸ h
    | cons b parts =>
      have hjoin (a b : Text) (parts : List Text) :
          join "/" (a :: b :: parts) = a ++ .char '/' :: join "/" (b :: parts) := by
        rw [join_cons_cons, List.append_assoc]
        rfl
      rw [hjoin, asFileName?_append_ascii (by decide)] at h
      obtain ⟨a', ha, hmap⟩ := Option.bind_eq_some_iff.1 h
      obtain ⟨rest, hrest, rfl⟩ := Option.map_eq_some_iff.1 hmap
      obtain ⟨rfl, hparts⟩ := ih (by simp) hrest
      obtain rfl := asFileName?_eq_respelled ha
      refine ⟨(hjoin ..).symm, fun part hpart => ?_⟩
      obtain rfl | hpart := List.mem_cons.1 hpart
      · exact ha
      · exact hparts part hpart

end Text

theorem join_pieces (t : Text) : Text.join "/" (pieces t) = t := by
  induction t with
  | nil => rfl
  | cons c t ih =>
    rw [pieces] at ih ⊢
    have hne := splitAtEach_ne_nil (.char '/') t
    rw [splitAtEach]
    cases hsplit : splitAtEach (.char '/') t with
    | nil => exact absurd hsplit hne
    | cons piece rest =>
      rw [hsplit] at ih
      split
      · rename_i hc
        rw [Text.join_cons_cons, ih, hc]
        rfl
      · cases rest with
        | nil => simpa using ih
        | cons next rest =>
          rw [Text.join_cons_cons] at ih ⊢
          simp [← ih]

/-- A path is spelled piece by piece. -/
theorem pieces_respelled {t t' : Text} (h : t.asFileName? = some t') :
    pieces t' = (pieces t).map Text.respelled := by
  rw [← join_pieces t] at h
  obtain ⟨rfl, -⟩ := Text.asFileName?_join (splitAtEach_ne_nil _ t) h
  refine pieces_join (by simpa using splitAtEach_ne_nil _ t) fun piece hpiece => ?_
  obtain ⟨part, hpart, rfl⟩ := List.mem_map.1 hpiece
  exact Text.slash_notMem_respelled (notMem_of_mem_splitAtEach part hpart)

end TagsFile
