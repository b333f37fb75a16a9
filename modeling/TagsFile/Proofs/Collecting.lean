import TagsFile.Proofs.Passage

/-!
# What a cursor collects

The text that a cursor has collected is told by three positions: where the snippet was started,
where it was ended, and where the first line break behind its start is. The moves of the cursor may
come in any order.

## Main definitions

* `Cursor.Move`, `Cursor.after`: the moves of a cursor, and where some of them lead.
* `stretch`: the tokens from one position through another.
* `nextBreak?`, `snippetEnd`: the first line break behind a position, and where a snippet ends.

## Main statements

* `Cursor.snippet_after`: the snippet, the flag and the position after any moves.
-/

namespace TagsFile

/-! ## Stretches of tokens -/

/-- The tokens from the position `s` through the position `e`. -/
def stretch (tokens : List Token) (s e : Nat) : List Token := (tokens.take (e + 1)).drop s

/-- The first position behind `s` whose token breaks the line. -/
def nextBreak? (tokens : List Token) (s : Nat) : Option Nat :=
  (List.range tokens.length).find? fun i => s < i && tokens[i]?.any Token.breaksLine

/-- Where a snippet ends that starts at `s`, if it is collected up to `e`: there, or at the first
line break behind `s`, or at the last token, whichever comes first. -/
def snippetEnd (tokens : List Token) (s e : Nat) : Nat :=
  min ((nextBreak? tokens s).elim e (min e)) (tokens.length - 1)

section Stretch

variable {tokens : List Token} {s e w : Nat} {t : Token}

theorem tail_stretch : (stretch tokens s e).tail = stretch tokens (s + 1) e :=
  List.tail_drop

theorem mem_stretch : t ∈ stretch tokens s e ↔ ∃ i, s ≤ i ∧ i ≤ e ∧ tokens[i]? = some t := by
  simp only [stretch, List.mem_iff_getElem?, List.getElem?_drop, List.getElem?_take]
  constructor
  · rintro ⟨i, hi⟩
    split at hi
    · exact ⟨s + i, by omega, by omega, hi⟩
    · cases hi
  · rintro ⟨i, hs, he, hi⟩
    refine ⟨i - s, ?_⟩
    rwa [Nat.add_sub_cancel' hs, if_pos (by omega)]

theorem stretch_concat (hs : s ≤ e + 1) (ht : tokens[e + 1]? = some t) :
    stretch tokens s (e + 1) = stretch tokens s e ++ [t] := by
  obtain ⟨hlt, -⟩ := List.getElem?_eq_some_iff.1 ht
  rw [stretch, List.take_add_one, ht, Option.toList_some, List.drop_append_of_le_length, stretch]
  rw [List.length_take]
  omega

theorem stretch_append (hs : s ≤ w + 1) (he : w ≤ e) (hw : w < tokens.length) :
    stretch tokens s e = stretch tokens s w ++ stretch tokens (w + 1) e := by
  have hsplit := List.take_append_drop (w + 1) (tokens.take (e + 1))
  rw [List.take_take, Nat.min_eq_left (by omega)] at hsplit
  rw [stretch, ← hsplit, List.drop_append_of_le_length, stretch, stretch]
  rw [List.length_take]
  omega

theorem stretch_cons (hs : s ≤ e) (ht : tokens[s]? = some t) :
    stretch tokens s e = t :: stretch tokens (s + 1) e := by
  obtain ⟨hlt, ht⟩ := List.getElem?_eq_some_iff.1 ht
  have htake : s < (tokens.take (e + 1)).length := by
    rw [List.length_take]
    omega
  rw [stretch, List.drop_eq_getElem_cons htake, List.getElem_take, ht, stretch]

theorem stretch_eq_nil (h : tokens.length ≤ s ∨ e < s) : stretch tokens s e = [] := by
  rw [stretch, List.drop_eq_nil_iff, List.length_take]
  omega

/-- Behind the last token there is nothing. -/
theorem stretch_clipped : stretch tokens s (min e (tokens.length - 1)) = stretch tokens s e := by
  by_cases hlt : e < tokens.length
  · rw [Nat.min_eq_left (by omega)]
  · rw [stretch, stretch, List.take_of_length_le (by omega), List.take_of_length_le (by omega)]

/-- What a first line break is. -/
theorem nextBreak?_eq_some (h : nextBreak? tokens s = some w) :
    s < w ∧ (∃ t, tokens[w]? = some t ∧ t.breaksLine = true) ∧
      ∀ i t, s < i → tokens[i]? = some t → t.breaksLine = true → w ≤ i := by
  obtain ⟨hw, -, hfirst⟩ := List.find?_range_eq_some.1 h
  simp only [Bool.and_eq_true, decide_eq_true_eq, Option.any_eq_true] at hw
  refine ⟨hw.1, hw.2, fun i t hs ht hbreak => Nat.le_of_not_lt fun hlt => ?_⟩
  have hnone := hfirst i hlt
  simp [hs, ht, hbreak] at hnone

theorem exists_nextBreak? {i : Nat} (hs : s < i) (ht : tokens[i]? = some t)
    (hbreak : t.breaksLine = true) : ∃ w, nextBreak? tokens s = some w := by
  refine Option.isSome_iff_exists.1 (List.find?_isSome.2 ⟨i, ?_, ?_⟩)
  · exact List.mem_range.2 (List.getElem?_eq_some_iff.1 ht).1
  · simp [hs, ht, hbreak]

/-- A stretch behind `s` breaks the line if it comes to the first line break there. -/
theorem any_stretch : (stretch tokens (s + 1) e).any Token.breaksLine = true ↔
    ∃ w ∈ nextBreak? tokens s, w ≤ e := by
  rw [List.any_eq_true]
  constructor
  · rintro ⟨t, ht, hbreak⟩
    obtain ⟨i, hs, he, ht⟩ := mem_stretch.1 ht
    obtain ⟨w, hw⟩ := exists_nextBreak? hs ht hbreak
    exact ⟨w, hw, ((nextBreak?_eq_some hw).2.2 i t hs ht hbreak).trans he⟩
  · rintro ⟨w, hw, he⟩
    obtain ⟨hs, ⟨t, ht, hbreak⟩, -⟩ := nextBreak?_eq_some hw
    exact ⟨t, mem_stretch.2 ⟨w, hs, he, ht⟩, hbreak⟩

theorem throughBreak_of_unbroken {ts : List Token} (h : ts.any Token.breaksLine = false) :
    throughBreak ts = ts := by
  induction ts with
  | nil => rfl
  | cons t ts ih =>
    obtain ⟨ht, hts⟩ : t.breaksLine = false ∧ ts.any Token.breaksLine = false := by simpa using h
    rw [throughBreak, ht, ih hts]
    rfl

/-- Behind a line break nothing is taken. -/
theorem throughBreak_append {ts : List Token} (h : ts.any Token.breaksLine = true)
    (more : List Token) : throughBreak (ts ++ more) = throughBreak ts := by
  induction ts with
  | nil => simp at h
  | cons t ts ih =>
    cases ht : t.breaksLine with
    | true => simp [throughBreak, ht]
    | false =>
      have hts : ts.any Token.breaksLine = true := by simpa [ht] using h
      simp [throughBreak, ht, ih hts]

/-- Of a stretch that comes to a line break the first one ends what is taken. -/
theorem throughBreak_stretch : throughBreak (stretch tokens (s + 1) e) =
    stretch tokens (s + 1) ((nextBreak? tokens s).elim e (min e)) := by
  by_cases hbreak : ∃ w ∈ nextBreak? tokens s, w ≤ e
  · obtain ⟨w, hw, he⟩ := hbreak
    obtain ⟨hs, ⟨t, ht, hbreak⟩, hfirst⟩ := nextBreak?_eq_some hw
    obtain ⟨v, rfl⟩ : ∃ v, w = v + 1 := ⟨w - 1, by omega⟩
    have hsplit := stretch_append (show s + 1 ≤ v + 2 by omega) he
      (List.getElem?_eq_some_iff.1 ht).1
    have hbefore : ¬(stretch tokens (s + 1) v).any Token.breaksLine = true := by
      rw [any_stretch]
      rintro ⟨w, hw', hle⟩
      obtain rfl := Option.some.inj (hw.symm.trans hw')
      omega
    have hconcat := stretch_concat (show s + 1 ≤ v + 1 by omega) ht
    rw [hw, Option.elim_some, Nat.min_eq_right he, hsplit,
      throughBreak_append (by simp [hconcat, hbreak]), hconcat, throughBreak_concat,
      if_neg hbefore, throughBreak_of_unbroken (Bool.eq_false_iff.2 hbefore)]
  · rw [throughBreak_of_unbroken (Bool.eq_false_iff.2 (mt any_stretch.1 hbreak))]
    cases hw : nextBreak? tokens s with
    | none => rfl
    | some w =>
      rw [Option.elim_some, Nat.min_eq_left]
      exact Nat.le_of_not_le fun hle => hbreak ⟨w, hw, hle⟩

/-- The text of a stretch through its first line break. -/
theorem snippetOf_stretch (hs : s ≤ e) : snippetOf (stretch tokens s e) =
    (stretch tokens s (snippetEnd tokens s e)).flatMap Token.text := by
  rw [snippetEnd, stretch_clipped]
  cases ht : tokens[s]? with
  | none =>
    have hlength := List.getElem?_eq_none_iff.1 ht
    rw [stretch_eq_nil (.inl hlength), stretch_eq_nil (.inl hlength)]
    rfl
  | some t =>
    have hstop : s ≤ (nextBreak? tokens s).elim e (min e) := by
      cases hw : nextBreak? tokens s with
      | none => exact hs
      | some w => exact Nat.le_min.2 ⟨hs, (nextBreak?_eq_some hw).1.le⟩
    rw [stretch_cons hs ht, snippetOf, throughBreak_stretch, stretch_cons hstop ht,
      List.flatMap_cons]

end Stretch

/-! ## Moves -/

namespace Cursor

/-- What can be done with a cursor. -/
inductive Move where
  | advance
  | startCollect
  | stopCollect
  | skipTo (texts : List Text)
deriving DecidableEq, Repr

def Move.apply (c : Cursor) : Move → Cursor
  | .advance => c.advance
  | .startCollect => c.startCollect
  | .stopCollect => c.stopCollect
  | .skipTo texts => (c.skipTo texts).2

/-- Where a cursor over some tokens stands after some moves. -/
def after (tokens : List Token) (moves : List Move) : Cursor :=
  moves.foldl Move.apply { rest := tokens }

variable {tokens : List Token} {moves later : List Move} {m : Move} {c : Cursor} {s : Nat}

theorem after_concat : after tokens (moves ++ [m]) = m.apply (after tokens moves) := by
  rw [after, List.foldl_append, after]
  rfl

/-- To skip is to advance some times. -/
theorem skipTo_induction {P : Cursor → Prop} (step : ∀ c, P c → P c.advance) (hc : P c)
    (texts : List Text) : P (c.skipTo texts).2 := by
  fun_induction Cursor.skipTo texts c with
  | case1 | case2 => exact step _ hc
  | case3 c t ts _ _ ih => exact ih (step c hc)

theorem over_after : Over tokens (after tokens moves) := by
  induction moves using List.reverseRecOn with
  | nil => exact ⟨[], rfl, rfl⟩
  | append_singleton moves m ih =>
    rw [after_concat]
    cases m with
    | advance => exact (invariant_over tokens).advance _ ih
    | startCollect => exact (invariant_over tokens).startCollect _ ih
    | stopCollect => exact (invariant_over tokens).stopCollect _ ih
    | skipTo texts => exact (invariant_over tokens).skipTo ih texts

theorem Over.position_le (h : Over tokens c) : c.position ≤ tokens.length := by
  obtain ⟨passed, rfl, hposition⟩ := h
  rw [hposition, List.length_append]
  omega

theorem Over.rest_eq (h : Over tokens c) : c.rest = tokens.drop c.position := by
  obtain ⟨passed, rfl, hposition⟩ := h
  rw [hposition, List.drop_left]

theorem position_le_advance (c : Cursor) : c.position ≤ c.advance.position := by
  unfold advance
  split
  · exact le_rfl
  · rw [position_record]
    exact Nat.le_succ _

theorem position_le_apply (c : Cursor) (m : Move) : c.position ≤ (m.apply c).position := by
  cases m with
  | advance => exact position_le_advance c
  | startCollect | stopCollect => exact le_rfl
  | skipTo texts =>
    exact skipTo_induction (P := fun d => c.position ≤ d.position)
      (fun d hd => hd.trans (position_le_advance d)) le_rfl texts

theorem position_after_le : (after tokens moves).position ≤
    (after tokens (moves ++ later)).position := by
  induction later using List.reverseRecOn with
  | nil => rw [List.append_nil]
  | append_singleton later m ih =>
    rw [← List.append_assoc, after_concat]
    exact ih.trans (position_le_apply _ m)

/-! ## Snippets -/

/-- A cursor that does not collect keeps its snippet. -/
theorem apply_of_not_collecting (hm : m ≠ .startCollect) (h : c.collecting = false) :
    (m.apply c).snippet = c.snippet ∧ (m.apply c).collecting = false := by
  cases m with
  | advance => exact advance_of_not_collecting h
  | startCollect => exact absurd rfl hm
  | stopCollect => exact ⟨rfl, rfl⟩
  | skipTo texts =>
    refine skipTo_induction (P := fun d => d.snippet = c.snippet ∧ d.collecting = false) ?_
      ⟨rfl, h⟩ texts
    rintro d ⟨hsnippet, hcollecting⟩
    obtain ⟨hsame, hstill⟩ := advance_of_not_collecting hcollecting
    exact ⟨hsame.trans hsnippet, hstill⟩

theorem after_of_not_collecting (hlater : .startCollect ∉ later) (tokens : List Token)
    (moves : List Move) (h : (after tokens moves).collecting = false) :
    (after tokens (moves ++ later)).snippet = (after tokens moves).snippet ∧
      (after tokens (moves ++ later)).collecting = false := by
  induction later using List.reverseRecOn with
  | nil => exact ⟨by rw [List.append_nil], by rwa [List.append_nil]⟩
  | append_singleton later m ih =>
    obtain ⟨hlater, hm⟩ : .startCollect ∉ later ∧ m ≠ .startCollect := by
      simpa [eq_comm] using hlater
    obtain ⟨hsnippet, hcollecting⟩ := ih hlater
    obtain ⟨hsame, hstill⟩ := apply_of_not_collecting hm hcollecting
    rw [← List.append_assoc, after_concat]
    exact ⟨hsame.trans hsnippet, hstill⟩

/-- The cursor stands over some tokens and has collected from `s` to where it stands. -/
structure CollectsFrom (tokens : List Token) (s : Nat) (c : Cursor) : Prop where
  stands : Over tokens c
  start_le : s ≤ c.position
  collects : Collects (stretch tokens s c.position) c

theorem Over.getElem?_eq {t : Token} {ts : List Token} (h : Over tokens c)
    (hrest : c.rest = t :: ts) : tokens[c.position]? = some t := by
  rw [← List.head?_drop, ← h.rest_eq, hrest, List.head?_cons]

theorem Over.startCollect (h : Over tokens c) : CollectsFrom tokens c.position c.startCollect where
  stands := (invariant_over tokens).startCollect _ h
  start_le := le_rfl
  collects := by
    change Collects (stretch tokens c.position c.position) c.startCollect
    cases hrest : c.rest with
    | nil =>
      have hend : tokens.length ≤ c.position := List.drop_eq_nil_iff.1 (h.rest_eq ▸ hrest)
      rw [stretch_eq_nil (.inl hend)]
      exact ⟨by simp [Cursor.startCollect, current?, hrest, snippetOf, Text.ofString], rfl⟩
    | cons t ts =>
      rw [stretch_cons le_rfl (h.getElem?_eq hrest), stretch_eq_nil (.inr (Nat.lt_succ_self _))]
      exact collects_startCollect hrest

theorem CollectsFrom.advance (h : CollectsFrom tokens s c) : CollectsFrom tokens s c.advance where
  stands := (invariant_over tokens).advance _ h.stands
  start_le := h.start_le.trans (position_le_advance c)
  collects := by
    obtain ⟨hover, hs, hcollects⟩ := h
    have hnext := (invariant_over tokens).advance _ hover
    match hrest : c.rest with
    | [] =>
      have hstay : c.advance = c := by simp [Cursor.advance, hrest]
      rwa [hstay]
    | [t] =>
      -- behind the last token there is nothing to join
      have hstep : c.advance = { c with rest := [], position := c.position + 1 } := by
        simp [Cursor.advance, hrest, record]
      have hlength : tokens.length - 1 = c.position := by
        have hone := congrArg List.length (hover.rest_eq.symm.trans hrest)
        rw [List.length_drop, List.length_singleton] at hone
        omega
      have hsame : stretch tokens s (c.position + 1) = stretch tokens s c.position := by
        rw [← stretch_clipped, hlength, Nat.min_eq_right (Nat.le_succ _)]
      rw [hstep]
      exact ⟨hcollects.snippet.trans (congrArg snippetOf hsame.symm),
        hcollects.collecting.trans (by rw [hsame])⟩
    | t :: t' :: ts =>
      have hposition : c.advance.position = c.position + 1 := by
        simp [Cursor.advance, hrest, position_record]
      have ht' : tokens[c.position + 1]? = some t' :=
        hposition ▸ hnext.getElem?_eq (by rw [rest_advance, hrest, List.tail_cons])
      obtain ⟨hlt, -⟩ := List.getElem?_eq_some_iff.1 ht'
      have hfirst : tokens[s]? = some (tokens.get ⟨s, by omega⟩) :=
        List.getElem?_eq_getElem (by omega)
      rw [stretch_cons hs hfirst] at hcollects
      have hwalked := hcollects.advance (show c.rest.tail = t' :: ts by rw [hrest]; rfl)
      rwa [← List.cons_append, ← stretch_cons hs hfirst, ← stretch_concat (by omega) ht',
        ← hposition] at hwalked

/-- While the snippet is neither started again nor ended, the cursor goes on to collect. -/
theorem collectsFrom_after (hstart : .startCollect ∉ later) (hstop : .stopCollect ∉ later)
    (h : CollectsFrom tokens s (after tokens moves)) :
    CollectsFrom tokens s (after tokens (moves ++ later)) := by
  induction later using List.reverseRecOn with
  | nil => rwa [List.append_nil]
  | append_singleton later m ih =>
    obtain ⟨hstart, hm⟩ : .startCollect ∉ later ∧ m ≠ .startCollect := by
      simpa [eq_comm] using hstart
    obtain ⟨hstop, hm'⟩ : .stopCollect ∉ later ∧ m ≠ .stopCollect := by
      simpa [eq_comm] using hstop
    have hlater := ih hstart hstop
    rw [← List.append_assoc, after_concat]
    cases m with
    | advance => exact hlater.advance
    | startCollect => exact absurd rfl hm
    | stopCollect => exact absurd rfl hm'
    | skipTo texts =>
      exact skipTo_induction (P := CollectsFrom tokens s) (fun _ => .advance) hlater texts

/-- The moves before the first end of a snippet. -/
def Move.untilStop (moves : List Move) : List Move := moves.takeWhile (· ≠ .stopCollect)

/-- From its last start on, a snippet is collected up to its first end, or up to now. -/
theorem collected_after (tokens : List Token) (before : List Move)
    (hstart : .startCollect ∉ later) :
    (after tokens (before ++ .startCollect :: later)).snippet = snippetOf (stretch tokens
      (after tokens before).position
      (after tokens (before ++ .startCollect :: Move.untilStop later)).position) ∧
    ((after tokens (before ++ .startCollect :: later)).collecting = true ↔
      .stopCollect ∉ later ∧
        (stretch tokens ((after tokens before).position + 1)
          (after tokens (before ++ .startCollect :: later)).position).any
            Token.breaksLine = false) := by
  have hstarted : CollectsFrom tokens (after tokens before).position
      (after tokens (before ++ [.startCollect])) := by
    rw [after_concat]
    exact over_after.startCollect
  have hcons (more : List Move) :
      before ++ Move.startCollect :: more = (before ++ [.startCollect]) ++ more := by simp
  by_cases hstop : .stopCollect ∈ later
  · obtain ⟨front, rest, rfl, hfront⟩ := List.eq_append_cons_of_mem hstop
    have huntil : Move.untilStop (front ++ .stopCollect :: rest) = front := by
      rw [Move.untilStop, List.takeWhile_append_of_pos, List.takeWhile_cons_of_neg (by simp),
        List.append_nil]
      intro m hm
      simpa using fun h : m = .stopCollect => hfront (h ▸ hm)
    obtain ⟨hstart, -, hrest⟩ : .startCollect ∉ front ∧ True ∧ .startCollect ∉ rest := by
      simpa using hstart
    have hended := (collectsFrom_after hstart hfront hstarted).collects.snippet
    obtain ⟨hsnippet, hcollecting⟩ := after_of_not_collecting hrest tokens
      (before ++ [.startCollect] ++ front ++ [.stopCollect]) (by rw [after_concat]; rfl)
    have hmoves : before ++ .startCollect :: (front ++ .stopCollect :: rest) =
        before ++ [.startCollect] ++ front ++ [.stopCollect] ++ rest := by simp
    rw [huntil, hmoves, hsnippet, hcollecting, after_concat, hcons front]
    exact ⟨hended, by simp⟩
  · have huntil : Move.untilStop later = later :=
      List.takeWhile_eq_self_iff.2 (by
        intro m hm
        simpa using fun h : m = .stopCollect => hstop (h ▸ hm))
    have hlater := (collectsFrom_after hstart hstop hstarted).collects
    rw [huntil, hcons, hlater.collecting, tail_stretch]
    exact ⟨hlater.snippet, by simp [hstop]⟩

/-- Over any tokens and after any moves: the cursor never goes back and stays within the tokens;
before the first start of a snippet nothing is collected; and from the last start on, the snippet is
the text of the tokens up to the first end of it, or up to now, but not behind the first line break,
and the cursor collects until one of the two is reached. -/
theorem snippet_after (tokens : List Token) (moves : List Move) :
    ((after tokens moves).rest = tokens.drop (after tokens moves).position ∧
      (after tokens moves).position ≤ tokens.length ∧
      ∀ later, (after tokens moves).position ≤ (after tokens (moves ++ later)).position) ∧
    (.startCollect ∉ moves →
      (after tokens moves).stopCollect.snippet = [] ∧ (after tokens moves).collecting = false) ∧
    ∀ before later, moves = before ++ .startCollect :: later → .startCollect ∉ later →
      let s := (after tokens before).position
      let e := (after tokens (before ++ .startCollect :: Move.untilStop later)).position
      (after tokens moves).stopCollect.snippet =
          (stretch tokens s (snippetEnd tokens s e)).flatMap Token.text ∧
        (s = tokens.length → (after tokens moves).stopCollect.snippet = []) ∧
        ((after tokens moves).collecting = true ↔
          .stopCollect ∉ later ∧ ∀ w ∈ nextBreak? tokens s, (after tokens moves).position < w) := by
  refine ⟨⟨over_after.rest_eq, over_after.position_le, fun later => position_after_le⟩,
    fun hstart => ?_, ?_⟩
  · obtain ⟨hsnippet, hcollecting⟩ := after_of_not_collecting hstart tokens [] rfl
    exact ⟨hsnippet, hcollecting⟩
  · rintro before later rfl hstart s e
    obtain ⟨hsnippet, hcollecting⟩ := collected_after tokens before hstart
    have hle : s ≤ e := position_after_le
    rw [snippetOf_stretch hle] at hsnippet
    refine ⟨hsnippet, fun hend => ?_, hcollecting.trans (and_congr_right fun _ => ?_)⟩
    · rw [snippet_stopCollect, hsnippet, stretch_eq_nil (.inl hend.ge), List.flatMap_nil]
    · rw [← Bool.not_eq_true, any_stretch]
      push Not
      rfl

/-- A heading with a line break before its name. -/
def brokenHeading : List Token :=
  [⟨.classWord, "class", 1⟩, ⟨.blank, "\n ", 1⟩, ⟨.name, "A", 2⟩, ⟨.symbol, ";", 2⟩]

/-- A snippet that is started again, and that a line break ends before it is stopped. -/
theorem snippet_after_brokenHeading :
    (after brokenHeading [.startCollect, .stopCollect, .startCollect, .skipTo [";"], .advance,
      .stopCollect, .stopCollect]).stopCollect.snippet =
        (stretch brokenHeading 0 (snippetEnd brokenHeading 0 4)).flatMap Token.text ∧
    snippetEnd brokenHeading 0 4 = 1 ∧
    (after brokenHeading [.startCollect, .stopCollect, .startCollect, .skipTo [";"], .advance,
      .stopCollect, .stopCollect]).collecting = false := by
  obtain ⟨-, -, hsnippet⟩ := snippet_after brokenHeading [.startCollect, .stopCollect,
    .startCollect, .skipTo [";"], .advance, .stopCollect, .stopCollect]
  obtain ⟨htext, -, hcollecting⟩ := hsnippet [.startCollect, .stopCollect] _ rfl (by decide)
  have hstart : (after brokenHeading [.startCollect, .stopCollect]).position = 0 := rfl
  have hend : (after brokenHeading ([.startCollect, .stopCollect] ++
      .startCollect :: Move.untilStop [.skipTo [";"], .advance, .stopCollect,
        .stopCollect])).position = 4 := by
    cbv
  rw [hstart, hend] at htext
  refine ⟨htext, by decide, ?_⟩
  rw [← Bool.not_eq_true, hcollecting]
  simp

end Cursor
end TagsFile
