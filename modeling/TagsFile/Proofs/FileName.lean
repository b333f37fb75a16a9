import TagsFile.Path.Basic
import TagsFile.Proofs.Utf8
import TagsFile.Text.FileName

/-!
# Names and the paths made of them

A text that the file system gives back as it was is spelled in the one way in which the file system
spells its bytes. Such texts can be put together at slashes and dots, so that a path made of names
leads along just these names.

## Main definitions

* `Text.IsName`: the texts that are names of entries.
* `Text.IsPart`: the same with `.` and `..`.
-/

namespace TagsFile

namespace Text

/-! ## Spelling -/

@[simp] theorem ofString_empty : ofString "" = [] := rfl

theorem fileBytes?_append (a b : Text) : fileBytes? (a ++ b) =
    (fileBytes? a).bind fun x => (fileBytes? b).map (x ++ ·) := by
  simp only [fileBytes?, List.mapM_append]
  cases a.mapM CodePoint.fileBytes? <;> cases b.mapM CodePoint.fileBytes? <;> simp

theorem fileBytes?_singleton (c : CodePoint) : fileBytes? [c] = c.fileBytes? := by
  cases h : c.fileBytes? <;> simp [fileBytes?, h]

theorem fileBytes?_map_char (cs : List Char) :
    fileBytes? (cs.map .char) = some (Utf8.bytesOf cs) := by
  induction cs with
  | nil => rfl
  | cons c cs ih =>
    rw [List.map_cons, ← List.singleton_append, fileBytes?_append, ih]
    simp [fileBytes?_singleton, CodePoint.fileBytes?]

/-- Characters are read off their bytes whatever follows. -/
theorem ofFileBytes_bytesOf_append (cs : List Char) (rest : List UInt8) :
    ofFileBytes (Utf8.bytesOf cs ++ rest) = cs.map .char ++ ofFileBytes rest := by
  induction cs with
  | nil => rfl
  | cons c cs ih =>
    obtain ⟨b, bs, hc, -, -, hstep⟩ := Utf8.utf8EncodeChar_cases c
    rw [Utf8.bytesOf_cons, hc, List.append_assoc, List.cons_append, ofFileBytes, hstep]
    simp [ih]

/-- An ASCII byte is in no character with the bytes before it. -/
theorem continuation_append {b : UInt8} (hb : b < 0x80) (rest : List UInt8) (more : Nat)
    {low high : UInt8} (hlow : 0x80 ≤ low) (bits : Nat) (bytes : List UInt8) :
    Utf8.continuation more low high bits (bytes ++ b :: rest) =
      ((Utf8.continuation more low high bits bytes).1,
        (Utf8.continuation more low high bits bytes).2 ++ b :: rest) := by
  induction bytes generalizing more low high bits with
  | nil =>
    have hout : ¬low ≤ b := by grind
    cases more <;> simp [Utf8.continuation, hout]
  | cons c bytes ih =>
    cases more with
    | zero => simp [Utf8.continuation]
    | succ more =>
      simp only [List.cons_append, Utf8.continuation]
      split
      · exact ih more (by decide) _
      · rfl

theorem le_low_of_lead? {b : UInt8} {l : Utf8.Lead} (h : Utf8.lead? b = some l) :
    0x80 ≤ l.low := by
  simp only [Utf8.lead?] at h
  repeat' split at h
  all_goals cases h <;> simp

theorem step_append {b : UInt8} (hb : b < 0x80) (rest : List UInt8) (first : UInt8)
    (bytes : List UInt8) : Utf8.step first (bytes ++ b :: rest) =
      ((Utf8.step first bytes).1, (Utf8.step first bytes).2 ++ b :: rest) := by
  simp only [Utf8.step]
  split
  · rfl
  · split
    · rfl
    · rename_i l hl
      exact continuation_append hb rest _ (le_low_of_lead? hl) _ _

/-- Before an ASCII byte, bytes are read for themselves. -/
theorem ofFileBytes_append {b : UInt8} (hb : b < 0x80) (rest bytes : List UInt8) :
    ofFileBytes (bytes ++ b :: rest) = ofFileBytes bytes ++ ofFileBytes (b :: rest) := by
  fun_induction ofFileBytes bytes with
  | case1 => rfl
  | case2 first bytes c hstep ih =>
    rw [List.cons_append, ofFileBytes, step_append hb, hstep]
    simp [ih]
  | case3 first bytes hstep ih =>
    rw [List.cons_append, ofFileBytes, step_append hb, hstep]
    simp [ih]

theorem asFileName?_eq_some {t : Text} :
    t.asFileName? = some t ↔ ∃ bytes, t.fileBytes? = some bytes ∧ ofFileBytes bytes = t := by
  simp [asFileName?]

theorem asFileName?_ofString_append (s : String) {t : Text} (h : t.asFileName? = some t) :
    asFileName? (ofString s ++ t) = some (ofString s ++ t) := by
  obtain ⟨bytes, hbytes, ht⟩ := asFileName?_eq_some.1 h
  rw [asFileName?, ofString, fileBytes?_append, fileBytes?_map_char, hbytes]
  simp [ofFileBytes_bytesOf_append, ht]

theorem asFileName?_nil : asFileName? [] = some [] := by
  simp [asFileName?, fileBytes?, ofFileBytes]

/-- A string is spelled in one way. -/
theorem asFileName?_ofString (s : String) : (ofString s).asFileName? = some (ofString s) := by
  simpa using asFileName?_ofString_append s asFileName?_nil

/-- On both sides of an ASCII character, a text is spelled for itself. -/
theorem asFileName?_append_ascii {c : Char} (hc : c.toNat < 0x80) (a b : Text) :
    asFileName? (a ++ .char c :: b) =
      (asFileName? a).bind fun a' => (asFileName? b).map (a' ++ .char c :: ·) := by
  have hcode : String.utf8EncodeChar c = [UInt8.ofNat c.toNat] := by
    rw [String.utf8EncodeChar, if_pos (by simpa using Nat.lt_succ_iff.1 hc)]
    rfl
  have hascii : UInt8.ofNat c.toNat < 0x80 := by
    rw [UInt8.lt_iff_toNat_lt, Utf8.toNat_ofNat_of_lt (by omega)]
    exact hc
  have hread (more : List UInt8) :
      ofFileBytes (UInt8.ofNat c.toNat :: more) = .char c :: ofFileBytes more := by
    simpa [hcode] using ofFileBytes_bytesOf_append [c] more
  have hwhole : fileBytes? (a ++ .char c :: b) = (fileBytes? a).bind fun bytes =>
      (fileBytes? b).map (bytes ++ UInt8.ofNat c.toNat :: ·) := by
    rw [fileBytes?_append, ← List.singleton_append, fileBytes?_append]
    simp [fileBytes?_singleton, CodePoint.fileBytes?, hcode, Option.map_map, Function.comp_def]
  rw [asFileName?, hwhole, asFileName?, asFileName?]
  cases fileBytes? a with
  | none => rfl
  | some bytes =>
    cases fileBytes? b with
    | none => rfl
    | some more =>
      simp only [Option.bind_some, Option.map_some]
      rw [ofFileBytes_append hascii, hread]

/-- A text can be continued by characters of which the first one is an ASCII character. -/
theorem asFileName?_append {t : Text} (h : t.asFileName? = some t) {c : Char} (hc : c.toNat < 0x80)
    {rest : Text} (hrest : rest.asFileName? = some rest) :
    asFileName? (t ++ .char c :: rest) = some (t ++ .char c :: rest) := by
  rw [asFileName?_append_ascii hc, h, hrest]
  rfl

/-! ## Names -/

/-- A component that stands in the text of a path as it is. -/
structure IsPart (part : Text) : Prop where
  ne_empty : part ≠ ""
  no_slash : .char '/' ∉ part
  no_nul : .char '\x00' ∉ part
  spelled : part.asFileName? = some part

/-- The name of an entry, in the spelling of the file system. -/
structure IsName (name : Text) : Prop extends IsPart name where
  ne_here : name ≠ "."
  ne_up : name ≠ ".."

/-- The name of an entry, in any spelling. -/
structure IsLabel (name : Text) : Prop where
  ne_empty : name ≠ ""
  no_slash : .char '/' ∉ name
  ne_here : name ≠ "."
  ne_up : name ≠ ".."

theorem IsName.isLabel {name : Text} (h : name.IsName) : name.IsLabel :=
  ⟨h.ne_empty, h.no_slash, h.ne_here, h.ne_up⟩

/-- An ASCII byte belongs to no character but its own. -/
theorem ascii_notMem_utf8EncodeChar {a c : Char} (ha : a.toNat < 0x80) (h : c ≠ a) :
    UInt8.ofNat a.toNat ∉ String.utf8EncodeChar c := by
  obtain ⟨b, bs, hc, -, hbs, hstep⟩ := Utf8.utf8EncodeChar_cases c
  rw [hc, List.mem_cons, not_or]
  constructor
  · rintro rfl
    have hread := hstep []
    rw [Utf8.step_ascii ha, Char.ofNat_toNat, Prod.mk.injEq, Option.some.injEq] at hread
    exact h hread.1.symm
  · intro hmem
    have hcontinues := (Utf8.isContinuation_ofNat (by omega)).1 (hbs _ hmem)
    omega

theorem ascii_notMem_fileBytes? {a : Char} (ha : a.toNat < 0x80) {t : Text} {bytes : List UInt8}
    (h : t.fileBytes? = some bytes) (hmem : .char a ∉ t) : UInt8.ofNat a.toNat ∉ bytes := by
  induction t generalizing bytes with
  | nil =>
    obtain rfl : [] = bytes := by simpa [fileBytes?] using h
    simp
  | cons c t ih =>
    rw [← List.singleton_append, fileBytes?_append, fileBytes?_singleton] at h
    obtain ⟨first, hfirst, hmap⟩ := Option.bind_eq_some_iff.1 h
    obtain ⟨rest, hrest, rfl⟩ := Option.map_eq_some_iff.1 hmap
    rw [List.mem_cons, not_or] at hmem
    rw [List.mem_append, not_or]
    refine ⟨?_, ih hrest hmem.2⟩
    cases c with
    | char c =>
      obtain rfl : String.utf8EncodeChar c = first := by
        simpa [CodePoint.fileBytes?] using hfirst
      exact ascii_notMem_utf8EncodeChar ha fun hc => hmem.1 (by rw [hc])
    | surrogate n =>
      obtain ⟨hn, rfl⟩ : (0x480 ≤ n.val ∧ n.val < 0x500) ∧ [UInt8.ofNat (n - 0x400)] = first := by
        simpa [CodePoint.fileBytes?] using hfirst
      intro heq
      have hbyte := congrArg UInt8.toNat (List.mem_singleton.1 heq)
      rw [Utf8.toNat_ofNat_of_lt (by omega), Utf8.toNat_ofNat_of_lt (by omega)] at hbyte
      omega

theorem zero_notMem_fileBytes? {t : Text} {bytes : List UInt8} (h : t.fileBytes? = some bytes)
    (hnul : .char '\x00' ∉ t) : 0 ∉ bytes :=
  ascii_notMem_fileBytes? (by decide) h hnul

/-! ## Texts joined by slashes -/

theorem join_cons_cons (separator a b : Text) (texts : List Text) :
    join separator (a :: b :: texts) = a ++ separator ++ join separator (b :: texts) := by
  simp [join, List.intercalate]

@[simp] theorem join_singleton (separator a : Text) : join separator [a] = a := by
  simp [join, List.intercalate]

/-- What holds of slashes and of texts that are put together holds of texts joined by slashes. -/
theorem join_induction {motive : Text → Prop} {parts : List Text} (hne : parts ≠ [])
    (hparts : ∀ part ∈ parts, motive part)
    (hslash : ∀ a b, motive a → motive b → motive (a ++ .char '/' :: b)) :
    motive (join "/" parts) := by
  induction parts with
  | nil => exact absurd rfl hne
  | cons a parts ih =>
    cases parts with
    | nil => simpa using hparts a (by simp)
    | cons b parts =>
      have hrest := ih (by simp) fun part hpart => hparts part (by simp [hpart])
      rw [join_cons_cons, List.append_assoc]
      exact hslash a _ (hparts a (by simp)) hrest

end Text

theorem splitAtEach_ne_nil [DecidableEq α] (mark : α) (cs : List α) : splitAtEach mark cs ≠ [] := by
  fun_induction splitAtEach mark cs <;> simp_all

theorem notMem_of_mem_splitAtEach [DecidableEq α] {mark : α} {cs : List α} :
    ∀ piece ∈ splitAtEach mark cs, mark ∉ piece := by
  fun_induction splitAtEach mark cs <;> grind

theorem splitAtEach_append [DecidableEq α] (mark : α) (as bs : List α) :
    splitAtEach mark (as ++ mark :: bs) = splitAtEach mark as ++ splitAtEach mark bs := by
  induction as with
  | nil => simp [splitAtEach]
  | cons a as ih =>
    rw [List.cons_append, splitAtEach, splitAtEach, ih]
    split
    · rfl
    · have hne := splitAtEach_ne_nil mark as
      cases h : splitAtEach mark as with
      | nil => exact absurd h hne
      | cons => rfl

theorem splitAtEach_of_notMem [DecidableEq α] {mark : α} {cs : List α} (h : mark ∉ cs) :
    splitAtEach mark cs = [cs] := by
  induction cs with
  | nil => rfl
  | cons c cs ih =>
    rw [List.mem_cons, not_or] at h
    rw [splitAtEach, if_neg (Ne.symm h.1), ih h.2]

theorem splitAtEach_join {mark : CodePoint} {parts : List Text} (hne : parts ≠ [])
    (h : ∀ part ∈ parts, mark ∉ part) : splitAtEach mark (Text.join [mark] parts) = parts := by
  induction parts with
  | nil => exact absurd rfl hne
  | cons a parts ih =>
    have ha : splitAtEach mark a = [a] := splitAtEach_of_notMem (h a (by simp))
    cases parts with
    | nil => rw [Text.join_singleton, ha]
    | cons b parts =>
      rw [Text.join_cons_cons, List.append_assoc, List.singleton_append, splitAtEach_append, ha,
        ih (by simp) fun part hpart => h part (by simp [hpart])]
      rfl

theorem pieces_join {parts : List Text} (hne : parts ≠ [])
    (h : ∀ part ∈ parts, CodePoint.char '/' ∉ part) : pieces (Text.join "/" parts) = parts :=
  splitAtEach_join hne h

theorem pieces_slash (t : Text) : pieces (.char '/' :: t) = [] :: pieces t := by
  rw [pieces, splitAtEach, if_pos rfl]
  rfl

namespace Path

/-- Paths whose components stand in their texts as they are. -/
def IsProper (p : Path) : Prop := ∀ part ∈ p.parts, Text.IsPart part

/-- Paths whose components are the pieces of their texts. -/
def IsSeparate (p : Path) : Prop := ∀ part ∈ p.parts, part ≠ "" ∧ CodePoint.char '/' ∉ part

theorem IsProper.isSeparate {p : Path} (h : p.IsProper) : p.IsSeparate :=
  fun part hpart => ⟨(h part hpart).ne_empty, (h part hpart).no_slash⟩

/-- The empty pieces that the slashes at the front of a path give. -/
def leading : Anchor → List Text
  | .here => []
  | .root => [""]
  | .twoSlashes => ["", ""]

theorem text_eq {anchor : Anchor} {parts : List Text} (h : (Path.mk anchor parts).IsSeparate)
    (hne : parts ≠ []) :
    (Path.mk anchor parts).text = anchorText anchor ++ Text.join "/" parts := by
  have hjoin : Text.join "/" parts ≠ "" :=
    Text.join_induction (motive := (· ≠ "")) hne (fun part hpart => (h part hpart).1)
      fun a b _ _ => List.append_ne_nil_of_right_ne_nil a (by simp)
  simp only [text]
  rw [if_neg]
  exact List.append_ne_nil_of_right_ne_nil _ hjoin

theorem pieces_text {anchor : Anchor} {parts : List Text} (h : (Path.mk anchor parts).IsSeparate)
    (hne : parts ≠ []) : pieces (Path.mk anchor parts).text = leading anchor ++ parts := by
  have hparts := pieces_join hne fun part hpart => (h part hpart).2
  rw [text_eq h hne]
  cases anchor with
  | here => exact hparts
  | root =>
    show pieces (.char '/' :: Text.join "/" parts) = _
    rw [pieces_slash, hparts]
    rfl
  | twoSlashes =>
    show pieces (.char '/' :: .char '/' :: Text.join "/" parts) = _
    rw [pieces_slash, pieces_slash, hparts]
    rfl

/-- What holds of the slash, the dot and the components of a path, and of texts that are put
together at slashes, holds of the text of the path. -/
theorem text_induction {motive : Text → Prop} {p : Path} (hp : p.IsSeparate) (hempty : motive [])
    (hdot : motive ".") (hparts : ∀ part ∈ p.parts, motive part)
    (hslash : ∀ a b, motive a → motive b → motive (a ++ .char '/' :: b)) : motive p.text := by
  obtain ⟨anchor, parts⟩ := p
  by_cases hne : parts = []
  · subst hne
    cases anchor with
    | here => exact hdot
    | root => exact hslash [] [] hempty hempty
    | twoSlashes => exact hslash [.char '/'] [] (hslash [] [] hempty hempty) hempty
  · have hjoin := Text.join_induction hne hparts hslash
    rw [text_eq hp hne]
    cases anchor with
    | here => exact hjoin
    | root => exact hslash [] _ hempty hjoin
    | twoSlashes => exact hslash [.char '/'] _ (hslash [] [] hempty hempty) hjoin

theorem asFileName?_text {p : Path} (hp : p.IsProper) : p.text.asFileName? = some p.text :=
  text_induction (motive := fun t => t.asFileName? = some t) hp.isSeparate Text.asFileName?_nil
    (Text.asFileName?_ofString ".") (fun part hpart => (hp part hpart).spelled)
    fun _ _ ha hb => Text.asFileName?_append ha (by decide) hb

theorem nul_notMem_text {p : Path} (hp : p.IsProper) : CodePoint.char '\x00' ∉ p.text :=
  text_induction (motive := fun t => CodePoint.char '\x00' ∉ t) hp.isSeparate (by simp) (by decide)
    (fun part hpart => (hp part hpart).no_nul) fun a b ha hb => by simp [ha, hb]

theorem text_ne_empty (p : Path) : p.text ≠ "" := by
  simp only [text]
  split
  · decide
  · assumption

end Path
end TagsFile
