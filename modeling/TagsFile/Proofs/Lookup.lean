import TagsFile.Proofs.EntryPlace
import TagsFile.Proofs.JsonDepth

/-!
# What looking up a source comes to

Whatever stands in the file of an entry, looking up its source gives a record, with one exception:
if the first tag that cannot be read is one whose line is infinite, there is none. Values that are
too deep inside each other need brackets that are.

## Main definitions

* `Text.IsUsable`: texts that can be paths.
* `Record.HasInfiniteLine`: the values whose reading stops at an infinite line.
* `Store.HasFresh`: the bytes of an entry that is not older than its source.
-/

namespace TagsFile

/-! ## Texts that can be paths -/

/-- Whether a text can be a path: all its code points have bytes, and none is a NUL. -/
def Text.IsUsable (t : Text) : Prop := ∀ c ∈ t, c.fileBytes? ≠ none ∧ c ≠ .char '\x00'

theorem Text.isUsable_append {a b : Text} : IsUsable (a ++ b) ↔ IsUsable a ∧ IsUsable b :=
  List.forall_mem_append

theorem Text.IsUsable.exists_fileBytes? {t : Text} (h : t.IsUsable) :
    ∃ bytes, t.fileBytes? = some bytes := by
  induction t with
  | nil => exact ⟨[], rfl⟩
  | cons c t ih =>
    obtain ⟨hc, ht⟩ := isUsable_append.1 (show IsUsable ([c] ++ t) from h)
    obtain ⟨bytes, hbytes⟩ := ih ht
    obtain ⟨front, hfront⟩ := Option.ne_none_iff_exists'.1 (hc c (by simp)).1
    refine ⟨front ++ bytes, ?_⟩
    rw [← List.singleton_append, fileBytes?_append, fileBytes?_singleton, hfront, hbytes]
    rfl

theorem Text.IsPart.isUsable {part : Text} (h : part.IsPart) : part.IsUsable := by
  intro c hc
  refine ⟨?_, fun hnul => h.no_nul (hnul ▸ hc)⟩
  obtain ⟨bytes, hbytes, -⟩ := asFileName?_eq_some.1 h.spelled
  obtain ⟨front, rest, rfl⟩ := List.append_of_mem hc
  rw [← List.singleton_append, fileBytes?_append, fileBytes?_append, fileBytes?_singleton] at hbytes
  intro hnone
  simp [hnone] at hbytes

theorem Path.isUsable_text {p : Path} (h : ∀ part ∈ p.parts, Text.IsUsable part) :
    p.text.IsUsable := by
  have hfixed (t : Text) (ht : t = "." ∨ t = "/" ∨ t = "//" ∨ t = "") : t.IsUsable := by
    rcases ht with rfl | rfl | rfl | rfl <;> unfold Text.IsUsable <;> decide
  have hjoin : Text.IsUsable (Text.join "/" p.parts) := by
    by_cases hne : p.parts = []
    · rw [hne]
      exact hfixed _ (by simp [Text.join, Text.ofString])
    · refine Text.join_induction hne h fun a b ha hb => ?_
      exact Text.isUsable_append.2 ⟨ha, Text.isUsable_append.2 ⟨hfixed "/" (by simp), hb⟩⟩
  rw [text]
  split
  · exact hfixed _ (by simp)
  · refine Text.isUsable_append.2 ⟨?_, hjoin⟩
    cases p.anchor <;> exact hfixed _ (by simp [anchorText])

namespace FileSystem

theorem locate_ne_badPath {text : Text} (h : text.IsUsable) (fs : FileSystem) (here : Here)
    (purpose : Purpose) (f : PathFault) : fs.locate here purpose text ≠ .error (.badPath f) := by
  obtain ⟨bytes, hbytes⟩ := h.exists_fileBytes?
  have hnul : bytes.contains 0 = false := by
    simpa using Text.zero_notMem_fileBytes? hbytes fun hmem => (h _ hmem).2 rfl
  rw [locate, hbytes]
  simp only [hnul, Bool.false_eq_true, if_false]
  split
  · simp
  · split
    · simp
    · cases fs.followFrom _ purpose _ <;> simp [Except.mapError]

theorem modifiedAt_ne_badPath {text : Text} (h : text.IsUsable) (fs : FileSystem) (here : Here)
    (f : PathFault) : fs.modifiedAt here text ≠ .error (.badPath f) := by
  have hlocate := locate_ne_badPath h fs here .target f
  unfold modifiedAt
  split <;> simp_all

theorem read_ne_badPath {text : Text} (h : text.IsUsable) (fs : FileSystem) (here : Here)
    (f : PathFault) : fs.read here text ≠ .error (.badPath f) := by
  have hlocate := locate_ne_badPath h fs here .target f
  unfold read
  split <;> simp_all

end FileSystem

/-! ## Lines that are infinite -/

/-- Whether a value is a number that is infinite, or too large for the numbers it is read to. -/
def Json.isInfinite : Json → Bool
  | .number (.infinity _) => true
  | .number (.decimal d) => d.nearest? = none
  | _ => false

namespace Record

theorem line_eq_lineInfinite {v : Json} : line v = .error .lineInfinite ↔ v.isInfinite = true := by
  unfold line
  split
  · simp [Json.isInfinite]
  · simp [Json.isInfinite]
  · rename_i d
    cases hd : d.nearest? <;> simp [Json.isInfinite, hd]
  · simp [Json.isInfinite]
  · simp [Json.isInfinite]
  · split <;> simp [Json.isInfinite]
  · simp [Json.isInfinite]

/-- The members of a tag whose line is infinite, and of which all that comes before the line can be
read. -/
structure IsInfiniteTag (members : List (Text × Json)) : Prop where
  name : Json.lookup "name" members ≠ none
  path : Json.lookup "path" members ≠ none
  pattern : Json.lookup "pattern" members ≠ none
  kind : ∃ (k : TagKind), Json.lookup "kind" members = some (.string k.letter)
  line : ∃ v, Json.lookup "line" members = some v ∧ v.isInfinite = true

theorem eq_of_mapM_char? {t : Text} {cs : List Char} (h : t.mapM CodePoint.char? = some cs) :
    t = cs.map .char := by
  induction t generalizing cs with
  | nil => simp_all
  | cons c t ih =>
    cases c with
    | surrogate n => simp [CodePoint.char?] at h
    | char c =>
      rw [List.mapM_cons] at h
      cases ht : t.mapM CodePoint.char? with
      | none => simp [ht, CodePoint.char?] at h
      | some rest =>
        simp only [CodePoint.char?, ht, Option.bind_eq_bind, Option.bind_some, Option.pure_def,
          Option.some.injEq] at h
        rw [← h, ih ht]
        rfl

theorem letter_of_ofLetter? {letter : String} {k : TagKind}
    (h : TagKind.ofLetter? letter = some k) :
    k.letter = letter := by
  unfold TagKind.ofLetter? at h
  split at h <;> cases h <;> rfl

theorem kind_eq_ok {v : Json} {k : TagKind} : kind v = .ok k ↔ v = .string k.letter := by
  constructor
  · intro h
    unfold kind at h
    split at h
    · rename_i t
      split at h
      · rename_i found hfound
        obtain rfl := Except.ok.inj h
        obtain ⟨str, hstr, hletter⟩ := Option.bind_eq_some_iff.1 hfound
        obtain ⟨cs, hcs, rfl⟩ := Option.map_eq_some_iff.1 hstr
        rw [eq_of_mapM_char? hcs, letter_of_ofLetter? hletter]
        simp [Text.ofString]
      · simp at h
    · simp at h
  · rintro rfl
    simp [kind]

theorem require_eq_ok {key : String} {members : List (Text × Json)} {v : Json} :
    require key members = .ok v ↔ Json.lookup key members = some v := by
  unfold require
  split <;> simp_all

theorem require_ne_lineInfinite (key : String) (members : List (Text × Json)) :
    require key members ≠ .error .lineInfinite := by
  unfold require
  split <;> simp

theorem bind_eq_error {α β : Type} {x : Except RecordFault α} {f : α → Except RecordFault β}
    {e : RecordFault} : (x >>= f) = .error e ↔ x = .error e ∨ ∃ a, x = .ok a ∧ f a = .error e := by
  cases x <;> simp [bind, Except.bind]

theorem tagOfMembers_eq_lineInfinite {members : List (Text × Json)} :
    tagOfMembers members = .error .lineInfinite ↔ IsInfiniteTag members := by
  have hextras : extras members ≠ .error .lineInfinite := by
    unfold extras
    split
    · simp
    · split <;> simp
  have hkind (v : Json) : kind v ≠ .error .lineInfinite := by
    unfold kind
    split
    · split <;> simp
    · simp
  simp only [tagOfMembers, bind_eq_error, require_ne_lineInfinite, hextras, hkind, false_or,
    line_eq_lineInfinite, require_eq_ok, kind_eq_ok, pure, Except.pure, reduceCtorEq, and_false,
    exists_false, or_false]
  constructor
  · rintro ⟨name, hname, path, hpath, pattern, hpattern, letter, hletter, k, rfl, v, hv, hline⟩
    exact ⟨by simp [hname], by simp [hpath], by simp [hpattern], ⟨k, hletter⟩, ⟨v, hv, hline⟩⟩
  · intro h
    obtain ⟨name, hname⟩ := Option.ne_none_iff_exists'.1 h.name
    obtain ⟨path, hpath⟩ := Option.ne_none_iff_exists'.1 h.path
    obtain ⟨pattern, hpattern⟩ := Option.ne_none_iff_exists'.1 h.pattern
    obtain ⟨k, hk⟩ := h.kind
    exact ⟨name, hname, path, hpath, pattern, hpattern, _, hk, k, rfl, h.line⟩

/-- The first item that cannot be read stops the reading of a list. -/
theorem mapM_eq_error {items : List Json} {e : RecordFault} :
    items.mapM tagOfJson = .error e ↔ ∃ front item rest, items = front ++ item :: rest ∧
      (∀ v ∈ front, ∃ t, tagOfJson v = .ok t) ∧ tagOfJson item = .error e := by
  induction items with
  | nil => simp [pure, Except.pure]
  | cons v items ih =>
    rw [List.mapM_cons, bind_eq_error]
    constructor
    · rintro (hv | ⟨t, ht, hrest⟩)
      · exact ⟨[], v, items, rfl, by simp, hv⟩
      · rw [bind_eq_error] at hrest
        rcases hrest with hrest | ⟨ts, -, hpure⟩
        · obtain ⟨front, item, rest, rfl, hfront, hitem⟩ := ih.1 hrest
          exact ⟨v :: front, item, rest, rfl, by simpa using ⟨⟨t, ht⟩, hfront⟩, hitem⟩
        · simp [pure, Except.pure] at hpure
    · rintro ⟨front, item, rest, heq, hfront, hitem⟩
      cases front with
      | nil =>
        obtain ⟨rfl, rfl⟩ := List.cons.inj heq
        exact .inl hitem
      | cons w front =>
        obtain ⟨rfl, rfl⟩ := List.cons.inj heq
        obtain ⟨t, ht⟩ := hfront v (by simp)
        refine .inr ⟨t, ht, bind_eq_error.2 (.inl (ih.2 ⟨front, item, rest, rfl, ?_, hitem⟩))⟩
        exact fun v hv => hfront v (by simp [hv])

/-- The values whose reading stops at an infinite line: records with a list of tags, in which the
first one that cannot be read has an infinite line. -/
inductive HasInfiniteLine : Json → Prop where
  | record {members tag : List (Text × Json)} {front rest : List Json}
      (hsupported : isSupported members = true) (hpath : Json.lookup "file_path" members ≠ none)
      (htags : Json.lookup "tags" members = some (.array (front ++ .object tag :: rest)))
      (hfront : ∀ v ∈ front, ∃ t, tagOfJson v = .ok t) (htag : IsInfiniteTag tag) :
      HasInfiniteLine (.object members)

theorem tagOfJson_eq_lineInfinite {v : Json} : tagOfJson v = .error .lineInfinite ↔
    ∃ members, v = .object members ∧ IsInfiniteTag members := by
  unfold tagOfJson
  split
  · simp [tagOfMembers_eq_lineInfinite]
  · rename_i hobject
    simp only [Except.error.injEq, reduceCtorEq, false_iff]
    rintro ⟨members, hv, -⟩
    exact hobject members hv

theorem tagsOfMembers_eq_lineInfinite {members : List (Text × Json)} :
    tagsOfMembers members = .error .lineInfinite ↔ ∃ front tag rest,
      Json.lookup "tags" members = some (.array (front ++ .object tag :: rest)) ∧
      (∀ v ∈ front, ∃ t, tagOfJson v = .ok t) ∧ IsInfiniteTag tag := by
  unfold tagsOfMembers
  split
  · rename_i hnone
    simp [hnone]
  · rename_i v hv
    rw [hv]
    constructor
    · intro h
      split at h
      · rename_i items hitems
        obtain ⟨front, item, rest, rfl, hfront, hitem⟩ := mapM_eq_error.1 h
        obtain ⟨tag, rfl, htag⟩ := tagOfJson_eq_lineInfinite.1 hitem
        refine ⟨front, tag, rest, ?_, hfront, htag⟩
        -- the items of a text and the keys of an object are texts
        cases v with
        | array items => simp_all [Json.items?]
        | string s =>
          have hmem : Json.object tag ∈ s.map fun c => Json.string [c] := by
            rw [Option.some.inj hitems]
            simp
          simp at hmem
        | object members =>
          have hmem : Json.object tag ∈ members.map fun m => Json.string m.1 := by
            rw [Option.some.inj hitems]
            simp
          simp at hmem
        | null | bool | number => simp [Json.items?] at hitems
      · simp at h
    · rintro ⟨front, tag, rest, hv, hfront, htag⟩
      obtain rfl := Option.some.inj hv
      refine mapM_eq_error.2 ⟨front, _, rest, rfl, hfront, ?_⟩
      exact tagOfJson_eq_lineInfinite.2 ⟨tag, rfl, htag⟩

theorem ofJson_eq_lineInfinite {v : Json} :
    ofJson v = .error .lineInfinite ↔ HasInfiniteLine v := by
  cases v with
  | object members =>
    rw [ofJson]
    split
    · rename_i hsupported
      rw [bind_eq_error]
      simp only [require_ne_lineInfinite, require_eq_ok, false_or, bind_eq_error,
        tagsOfMembers_eq_lineInfinite, pure, Except.pure, reduceCtorEq, and_false, exists_false,
        or_false]
      constructor
      · rintro ⟨path, hpath, front, tag, rest, htags, hfront, htag⟩
        exact .record hsupported (by simp [hpath]) htags hfront htag
      · rintro ⟨-, hpath, htags, hfront, htag⟩
        obtain ⟨path, hpath⟩ := Option.ne_none_iff_exists'.1 hpath
        exact ⟨path, hpath, _, _, _, htags, hfront, htag⟩
    · rename_i hsupported
      refine ⟨by simp, ?_⟩
      rintro ⟨h⟩
      exact absurd h hsupported
  | null | bool | number | string | array =>
    refine ⟨by simp [ofJson], ?_⟩
    rintro ⟨⟩

end Record

/-! ## Looking up -/

namespace Store

/-- The bytes of the entry of a source that is not older than the source. -/
structure HasFresh (s : Store) (fs : FileSystem) (here : Here) (path : Text) (bytes : List UInt8) :
    Prop where
  enabled : s.enabled = true
  bytes : fs.read here (s.entryPath path).text = .ok bytes
  fresh : ∃ entryTime sourceTime, fs.modifiedAt here (s.entryPath path).text = .ok entryTime ∧
    fs.modifiedAt here path = .ok sourceTime ∧ sourceTime ≤ entryTime

/-- The value in some bytes, for a reader that goes `depth` levels deep. -/
def ReadsAs (depth : Nat) (bytes : List UInt8) (v : Json) : Prop :=
  ∃ cs, Text.Utf8.decode? bytes = some cs ∧ Json.readWithin depth cs = .ok v

variable {depth : Nat} {bytes : List UInt8}

theorem decodeEntry_eq_lineInfinite :
    decodeEntry depth bytes = .error (.notRecord .lineInfinite) ↔
      ∃ v, ReadsAs depth bytes v ∧ Record.HasInfiniteLine v := by
  unfold decodeEntry ReadsAs
  cases hcs : Text.Utf8.decode? bytes with
  | none => simp
  | some cs =>
    cases hread : Json.readWithin depth cs with
    | error e => cases e <;> simp [hread]
    | ok v =>
      have hrecord := @Record.ofJson_eq_lineInfinite v
      cases hofJson : Record.ofJson v with
      | error f => simp_all
      | ok r => simp_all

theorem decodeEntry_ne_tooDeep
    (h : ∀ cs, Text.Utf8.decode? bytes = some cs → Json.nesting cs ≤ depth) :
    decodeEntry depth bytes ≠ .error .tooDeep := by
  unfold decodeEntry
  cases hcs : Text.Utf8.decode? bytes with
  | none => simp
  | some cs =>
    have hread := Json.readWithin_ne_tooDeep (h cs hcs)
    dsimp only
    split
    · contradiction
    · simp
    · split <;> simp

/-- What is made of the bytes of a fresh entry. -/
def ofBytes (depth : Nat) (bytes : List UInt8) : Except Fault Lookup :=
  match decodeEntry depth bytes with
  | .error (.notRecord .lineInfinite) => .error .infiniteLine
  | .error .tooDeep => .error .tooDeep
  | .error f => .ok (.miss (.corrupt f))
  | .ok tags => .ok (.hit tags)

theorem ofBytes_eq_hit {tags : List RawTag} :
    ofBytes depth bytes = .ok (.hit tags) ↔ decodeEntry depth bytes = .ok tags := by
  unfold ofBytes
  split <;> simp_all

theorem ofBytes_eq_infiniteLine : ofBytes depth bytes = .error .infiniteLine ↔
    ∃ v, ReadsAs depth bytes v ∧ Record.HasInfiniteLine v := by
  rw [← decodeEntry_eq_lineInfinite, ofBytes]
  split <;> simp_all

theorem ofBytes_eq_miss (hdepth : decodeEntry depth bytes ≠ .error .tooDeep)
    (htags : ∀ tags, decodeEntry depth bytes ≠ .ok tags)
    (hline : ∀ v, ReadsAs depth bytes v → ¬Record.HasInfiniteLine v) :
    ∃ reason, ofBytes depth bytes = .ok (.miss reason) := by
  unfold ofBytes
  split
  · rename_i h
    obtain ⟨v, hv, hinfinite⟩ := decodeEntry_eq_lineInfinite.1 h
    exact absurd hinfinite (hline v hv)
  · contradiction
  · exact ⟨_, rfl⟩
  · rename_i tags h
    exact absurd h (htags tags)

variable {s : Store} {fs : FileSystem} {here : Here} {loc : Location}

/-- A lookup finds a fresh entry, or it is a miss. -/
theorem load_cases (fs : FileSystem) (here : Here)
    (hroot : ∀ part ∈ s.root.parts, Text.IsUsable part) (hloc : loc.IsNamed) :
    (∃ bytes, s.HasFresh fs here loc.text bytes ∧
      s.load fs here loc.text = ofBytes here.depths.values bytes) ∨
    ((∀ bytes, ¬s.HasFresh fs here loc.text bytes) ∧
      ∃ reason, s.load fs here loc.text = .ok (.miss reason)) := by
  have hentry : (s.entryPath loc.text).text.IsUsable := by
    rw [entryPath_text s hloc]
    apply Path.isUsable_text
    intro part hpart
    rcases List.mem_append.1 hpart with hpart | hpart
    · exact hroot part hpart
    · exact (isName_entryNames hloc part hpart).isUsable
  have hsource : loc.text.IsUsable :=
    Path.isUsable_text fun name hname => (hloc name hname).isUsable
  rw [load]
  by_cases henabled : s.enabled = true
  · rw [if_pos henabled]
    dsimp only
    cases htime : fs.modifiedAt here (s.entryPath loc.text).text with
    | error e =>
      cases e with
      | badPath f => exact absurd htime (FileSystem.modifiedAt_ne_badPath hentry fs here f)
      | system e =>
        refine .inr ⟨fun bytes h => ?_, _, rfl⟩
        obtain ⟨entryTime, sourceTime, hentryTime, -⟩ := h.fresh
        simp [htime] at hentryTime
    | ok entryTime =>
      cases hsourceTime : fs.modifiedAt here loc.text with
      | error e =>
        cases e with
        | badPath f => exact absurd hsourceTime (FileSystem.modifiedAt_ne_badPath hsource fs here f)
        | system e =>
          refine .inr ⟨fun bytes h => ?_, _, rfl⟩
          obtain ⟨entryTime, sourceTime, -, htime, -⟩ := h.fresh
          simp [hsourceTime] at htime
      | ok sourceTime =>
        dsimp only
        split
        · rename_i hstale
          refine .inr ⟨fun bytes h => ?_, _, rfl⟩
          obtain ⟨entryTime', sourceTime', hentryTime, htime', hle⟩ := h.fresh
          rw [htime, Except.ok.injEq] at hentryTime
          rw [hsourceTime, Except.ok.injEq] at htime'
          omega
        · rename_i hfresh
          rw [readEntry]
          cases hread : fs.read here (s.entryPath loc.text).text with
          | error e =>
            cases e with
            | badPath f => exact absurd hread (FileSystem.read_ne_badPath hentry fs here f)
            | system e =>
              refine .inr ⟨fun bytes h => ?_, _, rfl⟩
              have hbytes := h.bytes
              simp [hread] at hbytes
          | ok bytes =>
            refine .inl ⟨bytes, ⟨henabled, hread, entryTime, sourceTime, htime, hsourceTime, ?_⟩,
              ?_⟩
            · omega
            · rfl
  · rw [if_neg henabled]
    exact .inr ⟨fun bytes h => henabled h.enabled, _, rfl⟩

theorem HasFresh.unique {path : Text} {bytes bytes' : List UInt8}
    (h : s.HasFresh fs here path bytes)
    (h' : s.HasFresh fs here path bytes') : bytes = bytes' :=
  Except.ok.inj (h.bytes.symm.trans h'.bytes)

theorem HasFresh.load_eq {path : Text} {bytes : List UInt8} (h : s.HasFresh fs here path bytes) :
    s.load fs here path = ofBytes here.depths.values bytes := by
  obtain ⟨henabled, hbytes, entryTime, sourceTime, hentry, hsource, hle⟩ := h
  have hfresh : ¬entryTime < sourceTime := by omega
  simp only [load, henabled, if_true, hentry, hsource, hfresh, if_false, readEntry, hbytes]
  rfl

/-- Looking up a source gives its tags if there is a fresh entry that holds some, and otherwise a
miss that is counted, whatever the entry holds: only a tag with an infinite line in a fresh entry
has no record. -/
theorem load_returns_unless_infiniteLine
    (hroot : ∀ part ∈ s.root.parts, Text.IsUsable part) (hloc : loc.IsNamed)
    (hdepth : ∀ bytes cs, fs.read here (s.entryPath loc.text).text = .ok bytes →
      Text.Utf8.decode? bytes = some cs → Json.nesting cs ≤ here.depths.values) :
    (∀ tags, s.load fs here loc.text = .ok (.hit tags) ↔
      ∃ bytes, s.HasFresh fs here loc.text bytes ∧
        decodeEntry here.depths.values bytes = .ok tags) ∧
    (s.load fs here loc.text = .error .infiniteLine ↔
      ∃ bytes v, s.HasFresh fs here loc.text bytes ∧ ReadsAs here.depths.values bytes v ∧
        Record.HasInfiniteLine v) ∧
    ((∀ bytes, s.HasFresh fs here loc.text bytes →
        (∀ tags, decodeEntry here.depths.values bytes ≠ .ok tags) ∧
          ∀ v, ReadsAs here.depths.values bytes v → ¬Record.HasInfiniteLine v) →
      ∃ found, s.load fs here loc.text = .ok found ∧
        found.record loc.text = { path := .string loc.text, valid := false, tags := [] } ∧
        s.counted found = { s with misses := s.misses + 1 }) := by
  rcases load_cases fs here hroot hloc with ⟨bytes, hfresh, hload⟩ | ⟨hnone, reason, hload⟩
  · have honly {bytes' : List UInt8} (h : s.HasFresh fs here loc.text bytes') : bytes' = bytes :=
      h.unique hfresh
    rw [hload]
    refine ⟨fun tags => ofBytes_eq_hit.trans ⟨fun h => ⟨bytes, hfresh, h⟩, ?_⟩,
      ofBytes_eq_infiniteLine.trans ⟨?_, ?_⟩, fun h => ?_⟩
    · rintro ⟨bytes', hfresh', htags⟩
      exact honly hfresh' ▸ htags
    · rintro ⟨v, hv, hinfinite⟩
      exact ⟨bytes, v, hfresh, hv, hinfinite⟩
    · rintro ⟨bytes', v, hfresh', hv, hinfinite⟩
      exact ⟨v, honly hfresh' ▸ hv, hinfinite⟩
    · obtain ⟨htags, hline⟩ := h bytes hfresh
      have hdeep := decodeEntry_ne_tooDeep fun cs => hdepth bytes cs hfresh.bytes
      obtain ⟨reason, hmiss⟩ := ofBytes_eq_miss hdeep htags hline
      exact ⟨_, hmiss, rfl, rfl⟩
  · rw [hload]
    refine ⟨fun tags => ⟨by simp, ?_⟩, ⟨by simp, ?_⟩, fun _ => ⟨_, rfl, rfl, rfl⟩⟩
    · rintro ⟨bytes, hfresh, -⟩
      exact absurd hfresh (hnone bytes)
    · rintro ⟨bytes, v, hfresh, -⟩
      exact absurd hfresh (hnone bytes)

/-- An entry with a tag whose line is infinite. -/
def infiniteLineEntry : List UInt8 :=
  Text.Utf8.encode ("\x7b\"format\":\"ptags-cache\",\"version\":1,\"file_path\":\"\"," ++
    "\"tags\":[\x7b\"name\":\"A\",\"path\":\"\",\"pattern\":\"\",\"kind\":\"c\"," ++
    "\"line\":Infinity\x7d]\x7d")

/-- A source and an entry for it that is not older. -/
def filesWithEntry (content : List UInt8) : FileSystem where
  entries := [("a.php", .file [] 1), ("cache", .directory 0 [("a.php.json", .file content 2)])]

/-- The store that the entry belongs to. -/
def storeAtCache : Store where
  root := ⟨.root, ["cache"]⟩

theorem load_returns_unless_infiniteLine_filesWithEntry :
    Location.IsNamed ["a.php"] ∧
    storeAtCache.load (filesWithEntry infiniteLineEntry) Here.root (Location.text ["a.php"]) =
      .error .infiniteLine ∧
    ∃ bytes v, storeAtCache.HasFresh (filesWithEntry infiniteLineEntry) Here.root
      (Location.text ["a.php"]) bytes ∧ ReadsAs Here.root.depths.values bytes v ∧
      Record.HasInfiniteLine v := by
  have hnamed : Location.IsNamed ["a.php"] := by
    intro name hname
    obtain rfl := List.mem_singleton.1 hname
    exact Text.isName_ofString (by simp) (by decide) (by decide) (by decide)
  have hroot : ∀ part ∈ storeAtCache.root.parts, Text.IsUsable part := by
    intro part hpart
    obtain rfl := List.mem_singleton.1 hpart
    exact (Text.isName_ofString (by simp) (by decide) (by decide) (by decide)).isUsable
  have hread (content : List UInt8) : (filesWithEntry content).read Here.root
      (storeAtCache.entryPath (Location.text ["a.php"])).text = .ok content := by
    cbv
  have hentry (content : List UInt8) : (filesWithEntry content).modifiedAt Here.root
      (storeAtCache.entryPath (Location.text ["a.php"])).text = .ok 2 := by
    cbv
  have hsource (content : List UInt8) : (filesWithEntry content).modifiedAt Here.root
      (Location.text ["a.php"]) = .ok 1 := by
    cbv
  have hdecode : decodeEntry Here.root.depths.values infiniteLineEntry =
      .error (.notRecord .lineInfinite) := by
    cbv
  have hnesting : (Text.Utf8.decode? infiniteLineEntry).map Json.nesting = some 3 := by
    decide +kernel
  have hdepth : ∀ bytes cs, (filesWithEntry infiniteLineEntry).read Here.root
      (storeAtCache.entryPath (Location.text ["a.php"])).text = .ok bytes →
      Text.Utf8.decode? bytes = some cs → Json.nesting cs ≤ Here.root.depths.values := by
    intro bytes cs hbytes hcs
    obtain rfl := Except.ok.inj ((hread infiniteLineEntry).symm.trans hbytes)
    rw [hcs, Option.map_some, Option.some.injEq] at hnesting
    rw [hnesting]
    decide
  have hfresh : storeAtCache.HasFresh (filesWithEntry infiniteLineEntry) Here.root
      (Location.text ["a.php"]) infiniteLineEntry :=
    ⟨rfl, hread _, 2, 1, hentry _, hsource _, by decide⟩
  obtain ⟨v, hholds, hinfinite⟩ := decodeEntry_eq_lineInfinite.1 hdecode
  have hfound : ∃ bytes v, storeAtCache.HasFresh (filesWithEntry infiniteLineEntry) Here.root
      (Location.text ["a.php"]) bytes ∧ ReadsAs Here.root.depths.values bytes v ∧
      Record.HasInfiniteLine v :=
    ⟨_, v, hfresh, hholds, hinfinite⟩
  exact ⟨hnamed, (load_returns_unless_infiniteLine hroot hnamed hdepth).2.1.2 hfound, hfound⟩

end Store
end TagsFile
