import TagsFile.Proofs.Coverage

/-!
# Lines of tokens

The line of a token is counted on the bytes before it, while line breaks are later looked for in the
texts of tokens. Both agree for all bytes and all cuts: decoding never takes the byte of a line
break for a part of a character, and reads no other bytes as a line break.

## Main definitions

* `breaksIn`: the line breaks in the texts of some tokens.
* `Flattening.Counts`: the lines of the tokens so far, and the line of what comes next.

## Main statements

* `tokenize_lines`: the lines of the tokens of a source.
-/

namespace TagsFile

/-! ## Line breaks in decoded bytes -/

namespace Text.Utf8

theorem ofNat_ne_break {n : Nat} (h : 10 < n) : Char.ofNat n ≠ '\n' := by
  intro heq
  have hten : (Char.ofNat n).toNat = 10 := by rw [heq]; rfl
  rw [Char.toNat_ofNat] at hten
  split at hten <;> omega

/-- What a first byte announces is no line break: together with the least second byte it gives
enough bits. -/
theorem lead?_bounds {b : UInt8} {l : Lead} (h : lead? b = some l) :
    l.more ≠ 0 ∧ 0x80 ≤ l.low ∧ 10 < l.bits * 64 + (l.low.toNat - 0x80) := by
  unfold lead? at h
  simp only at h
  split_ifs at h <;> cases h <;> simp <;> omega

/-- The bytes that continue a character are no line breaks. -/
theorem continuation_taken {more : Nat} {low high : UInt8} (hlow : 0x80 ≤ low) (bits : Nat)
    (bytes : List UInt8) :
    ∃ taken, bytes = taken ++ (continuation more low high bits bytes).2 ∧ 10 ∉ taken := by
  fun_induction continuation more low high bits bytes with
  | case1 => exact ⟨[], rfl, by simp⟩
  | case2 more low high bits b bytes hb ih =>
    obtain ⟨taken, heq, hnot⟩ := ih (by decide)
    simp only [Bool.and_eq_true, decide_eq_true_eq] at hb
    have hne : 10 ≠ b := by
      rintro rfl
      exact absurd (UInt8.le_trans hlow hb.1) (by decide)
    exact ⟨b :: taken, by rw [List.cons_append, ← heq], by simp [hne, hnot]⟩
  | case3 => exact ⟨[], rfl, by simp⟩
  | case4 => exact ⟨[], rfl, by simp⟩

theorem continuation_ne_break {more : Nat} {low high : UInt8} {bits : Nat} (bytes : List UInt8)
    (hbits : 10 < bits) : (continuation more low high bits bytes).1 ≠ some '\n' := by
  fun_induction continuation more low high bits bytes with
  | case1 => simpa using ofNat_ne_break hbits
  | case2 more low high bits b bytes hb ih => exact ih (by omega)
  | case3 => simp
  | case4 => simp

theorem continuation_succ_ne_break {more : Nat} {low high : UInt8} {bits : Nat}
    (bytes : List UInt8) (hbits : 10 < bits * 64 + (low.toNat - 0x80)) :
    (continuation (more + 1) low high bits bytes).1 ≠ some '\n' := by
  cases bytes with
  | nil => simp [continuation]
  | cons b bytes =>
    rw [continuation]
    split
    · rename_i hb
      simp only [Bool.and_eq_true, decide_eq_true_eq] at hb
      have hle : low.toNat ≤ b.toNat := UInt8.le_iff_toNat_le.1 hb.1
      exact continuation_ne_break bytes (by omega)
    · simp

theorem step_taken (b : UInt8) (bytes : List UInt8) :
    ∃ taken, bytes = taken ++ (step b bytes).2 ∧ 10 ∉ taken := by
  unfold step
  split
  · exact ⟨[], rfl, by simp⟩
  · split
    · exact ⟨[], rfl, by simp⟩
    · exact continuation_taken (lead?_bounds (by assumption)).2.1 _ _

theorem step_ne_break {b : UInt8} (hb : ¬b < 0x80) (bytes : List UInt8) :
    (step b bytes).1 ≠ some '\n' := by
  rw [step, if_neg hb]
  split
  · simp
  · rename_i l hl
    obtain ⟨hmore, -, hbits⟩ := lead?_bounds hl
    obtain ⟨more, hmore⟩ := Nat.exists_eq_succ_of_ne_zero hmore
    rw [hmore]
    exact continuation_succ_ne_break bytes hbits

theorem step_eq_break_iff (b : UInt8) (bytes : List UInt8) :
    (step b bytes).1 = some '\n' ↔ b = 10 := by
  by_cases hb : b < 0x80
  · have hlt : b.toNat < 0x80 := UInt8.lt_iff_toNat_lt.1 hb
    have hvalid : b.toNat.isValidChar := .inl (by omega)
    rw [step, if_pos hb, Option.some_inj, ← Char.toNat_inj, Char.toNat_ofNat, if_pos hvalid]
    exact UInt8.toNat_inj (b := 10)
  · have hne : b ≠ 10 := by rintro rfl; exact hb (by decide)
    simpa [hne] using step_ne_break hb bytes

/-- Decoding neither loses nor invents a line break. -/
theorem count_decodeLossy (bytes : List UInt8) :
    (decodeLossy bytes).count '\n' = bytes.count 10 := by
  fun_induction decodeLossy bytes with
  | case1 => rfl
  | case2 b bytes ih =>
    obtain ⟨taken, heq, hnot⟩ := step_taken b bytes
    have hrest : bytes.count 10 = (step b bytes).2.count 10 := by
      nth_rewrite 1 [heq]
      rw [List.count_append, List.count_eq_zero_of_not_mem hnot, Nat.zero_add]
    -- the character in place of an ill-formed part is no line break either
    have hfirst : (step b bytes).1.getD '�' = '\n' ↔ b = 10 := by
      rw [← step_eq_break_iff b bytes]
      cases (step b bytes).1 <;> simp
    rw [List.count_cons, List.count_cons, ih, hrest]
    simp only [beq_iff_eq, hfirst]

end Text.Utf8

open Text.Utf8

theorem count_lossyText (bytes : List UInt8) :
    (lossyText bytes).count (.char '\n') = lineBreaks bytes := by
  rw [lossyText, List.count_map_of_injective _ _ (fun a b h => CodePoint.char.inj h),
    count_decodeLossy, lineBreaks]

/-! ## Lines of tokens -/

/-- The line breaks in the texts of some tokens. -/
def breaksIn (tokens : List Token) : Nat := (tokens.map fun t => t.text.count (.char '\n')).sum

theorem breaksIn_append (ts us : List Token) : breaksIn (ts ++ us) = breaksIn ts + breaksIn us := by
  simp [breaksIn]

theorem breaksIn_mono {ts us : List Token} (h : ts <+: us) : breaksIn ts ≤ breaksIn us := by
  obtain ⟨more, rfl⟩ := h
  rw [breaksIn_append]
  exact Nat.le_add_right _ _

/-- The line breaks in tokens are those of the bytes that they are the texts of. -/
theorem breaksIn_eq_lineBreaks {tokens : List Token} {slices : List (List UInt8)}
    (h : tokens.map Token.text = slices.map lossyText) :
    breaksIn tokens = lineBreaks slices.flatten := by
  calc breaksIn tokens = ((tokens.map Token.text).map (List.count (.char '\n'))).sum := by
        rw [breaksIn, List.map_map]; rfl
    _ = (slices.map lineBreaks).sum := by
        rw [h, List.map_map]
        congr 1
        exact List.map_congr_left fun s _ => count_lossyText s
    _ = lineBreaks slices.flatten := (List.count_flatten ..).symm

namespace Flattening

/-- Each token so far has the line that the line breaks in the ones before it give, and so has what
comes next. -/
structure Counts (f : Flattening) : Prop where
  line : f.line = 1 + breaksIn f.tokens.toList
  lines : ∀ (before : List Token) (t : Token), before ++ [t] <+: f.tokens.toList →
    t.line = 1 + breaksIn before

theorem Counts.emit {f : Flattening} (h : Counts f) (kind : TokenKind) (n : Nat)
    (previous : Option Token) : Counts { f.emit kind n with previous } where
  line := by
    have hcount := count_lossyText (f.rest.take n)
    simp only [Flattening.emit, Array.toList_push, breaksIn_append, h.line]
    simp [breaksIn, peek, lossyText] at hcount ⊢
    omega
  lines before t hprefix := by
    simp only [Flattening.emit, Array.toList_push] at hprefix
    obtain heq | hprefix := List.prefix_concat_iff.1 hprefix
    · obtain ⟨rfl, hlast⟩ := List.append_inj' heq rfl
      rw [List.singleton_inj.1 hlast]
      exact h.line
    · exact h.lines before t hprefix

theorem Counts.emitGap {f : Flattening} (h : Counts f) (start : Nat) :
    Counts (f.emitGap start) := by
  obtain ⟨-, heq⟩ | ⟨kind, -, heq⟩ := emitGap_cases f start <;> rw [heq]
  · exact ⟨h.line, h.lines⟩
  · exact h.emit kind _ f.previous

end Flattening

theorem counts_flatten (source : List UInt8) (tree : SyntaxTree) :
    (flatten [⟨tree, false, none⟩] { rest := source }).Counts := by
  refine Flattening.flatten_keeps _ (fun _ => True) ?_ ?_ (fun _ _ => trivial) ?_
  · exact fun f start _ _ h => h.emitGap start
  · exact fun f kind stop previous _ _ h => h.emit kind _ previous
  · exact ⟨rfl, by simp⟩

theorem line_getElem_tokenize (source : List UInt8) (tree : SyntaxTree) {k : Nat}
    (hk : k < (tokenize source tree).length) :
    (tokenize source tree)[k].line = 1 + breaksIn ((tokenize source tree).take k) := by
  have hfinish : (flatten [⟨tree, false, none⟩] { rest := source }).finish.Counts :=
    (counts_flatten source tree).emitGap _
  refine hfinish.lines _ _ ?_
  rw [List.take_append_getElem]
  exact List.take_prefix _ _

/-- The line of a token is one more than the number of line breaks in the texts of the tokens before
it, which are those in the bytes before the slice that the token is the text of. So lines never
decrease, and none is beyond the last line of the source. -/
theorem tokenize_lines (source : List UInt8) (tree : SyntaxTree) :
    ∃ slices : List (List UInt8), slices.flatten = source ∧
      (tokenize source tree).map Token.text = slices.map lossyText ∧
      (∀ k : Fin (tokenize source tree).length,
        (tokenize source tree)[k].line = 1 + breaksIn ((tokenize source tree).take k) ∧
        breaksIn ((tokenize source tree).take k) = lineBreaks (slices.take k).flatten) ∧
      ((tokenize source tree).map Token.line).Pairwise (· ≤ ·) ∧
      ∀ t ∈ tokenize source tree, t.line ≤ 1 + lineBreaks source := by
  obtain ⟨slices, hcovers, -⟩ := exists_covers_flatten source tree
  obtain ⟨more, hmore, hflatten, -⟩ := hcovers.finish
  have htexts : (tokenize source tree).map Token.text = (slices ++ more).map lossyText :=
    hmore.texts
  refine ⟨slices ++ more, hflatten, htexts, fun k => ⟨line_getElem_tokenize source tree k.2, ?_⟩,
    ?_, ?_⟩
  · apply breaksIn_eq_lineBreaks
    rw [List.map_take, htexts, List.map_take]
  · rw [List.pairwise_map, List.pairwise_iff_getElem]
    intro i j hi hj hij
    rw [line_getElem_tokenize, line_getElem_tokenize]
    have hle : breaksIn ((tokenize source tree).take i) ≤
        breaksIn ((tokenize source tree).take j) :=
      breaksIn_mono (List.take_prefix_take_left hij.le)
    omega
  · intro t ht
    obtain ⟨k, hk, rfl⟩ := List.getElem_of_mem ht
    have hle := breaksIn_mono (List.take_prefix k (tokenize source tree))
    rw [breaksIn_eq_lineBreaks htexts, hflatten] at hle
    rw [line_getElem_tokenize]
    omega

end TagsFile
