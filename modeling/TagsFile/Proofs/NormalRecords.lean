import TagsFile.Proofs.EntryText
import TagsFile.Proofs.Lookup

/-!
# Reading a record normalizes it

Many values stand for one record: the line of a tag may be given by any number or by a text, its
extras by a text or by the keys of an object, and what is missing may be null. What is written for a
record is one of them, and reading it gives the record back. The records that can be read are those
in which the lines are integers and no scope and no access is null; all else may be any value.

## Main definitions

* `Record.ReadsTag`: the tag that some members stand for.

## Main statements

* `Record.tagOfMembers_eq_ok`, `Record.ofJson_eq_ok`: reading, field by field.
* `Record.ofJson_normalizes`: what has been read once is read the same from what is written for it.
-/

namespace TagsFile.Record

theorem bind_eq_ok {α β : Type} {x : Except RecordFault α} {f : α → Except RecordFault β} {b : β} :
    (x >>= f) = .ok b ↔ ∃ a, x = .ok a ∧ f a = .ok b := by
  cases x <;> simp [bind, Except.bind]

/-! ## Tags -/

/-- The tag that some members stand for, field by field. -/
structure ReadsTag (members : List (Text × Json)) (t : RawTag) : Prop where
  name : Json.lookup "name" members = some t.name
  path : Json.lookup "path" members = some t.path
  pattern : Json.lookup "pattern" members = some t.pattern
  kind : Json.lookup "kind" members = some (.string t.kind.letter)
  line : ∃ v n, Json.lookup "line" members = some v ∧ Record.line v = .ok n ∧ t.line = .ofInt n
  scope : t.scope = optional "scope" members
  extras : Record.extras members = .ok t.extras
  access : t.access = optional "access" members

theorem tagOfMembers_eq_ok {members : List (Text × Json)} {t : RawTag} :
    tagOfMembers members = .ok t ↔ ReadsTag members t := by
  simp only [tagOfMembers, bind_eq_ok, require_eq_ok, kind_eq_ok, pure, Except.pure,
    Except.ok.injEq]
  constructor
  · rintro ⟨name, hname, path, hpath, pattern, hpattern, letter, hletter, k, rfl, v, hv, n, hn,
      items, hitems, rfl⟩
    exact ⟨hname, hpath, hpattern, hletter, ⟨v, n, hv, hn, rfl⟩, rfl, hitems, rfl⟩
  · intro h
    obtain ⟨v, n, hv, hn, hline⟩ := h.line
    refine ⟨t.name, h.name, t.path, h.path, t.pattern, h.pattern, _, h.kind, t.kind, rfl, v, hv, n,
      hn, t.extras, h.extras, ?_⟩
    rw [← h.scope, ← h.access, ← hline]

theorem optional_ne_null (key : String) (members : List (Text × Json)) :
    optional key members ≠ some .null := by
  unfold optional
  split
  · simp
  · rename_i hnull
    exact hnull

theorem ReadsTag.isNormal {members : List (Text × Json)} {t : RawTag} (h : ReadsTag members t) :
    IsNormal t where
  line := by
    obtain ⟨-, n, -, -, hline⟩ := h.line
    exact ⟨n, hline⟩
  scope := h.scope ▸ optional_ne_null "scope" members
  access := h.access ▸ optional_ne_null "access" members

theorem isNormal_of_tagOfJson {v : Json} {t : RawTag} (h : tagOfJson v = .ok t) : IsNormal t := by
  cases v with
  | object members => exact (tagOfMembers_eq_ok.1 h).isNormal
  | null | bool | number | string | array => cases h

theorem isNormal_of_mapM {items : List Json} {tags : List RawTag}
    (h : items.mapM tagOfJson = .ok tags) : ∀ t ∈ tags, IsNormal t := by
  induction items generalizing tags with
  | nil =>
    cases h
    simp
  | cons v items ih =>
    simp only [List.mapM_cons, bind_eq_ok, pure, Except.pure, Except.ok.injEq] at h
    obtain ⟨t, ht, rest, hrest, rfl⟩ := h
    simpa using ⟨isNormal_of_tagOfJson ht, ih hrest⟩

/-! ## Records -/

theorem ofJson_eq_ok {v : Json} {r : Record} :
    ofJson v = .ok r ↔ ∃ members, v = .object members ∧ isSupported members = true ∧
      Json.lookup "file_path" members = some r.path ∧ r.valid = true ∧
      tagsOfMembers members = .ok r.tags := by
  cases v with
  | object members =>
    rw [ofJson]
    split
    · rename_i hsupported
      simp only [bind_eq_ok, require_eq_ok, pure, Except.pure, Except.ok.injEq, Json.object.injEq,
        exists_eq_left', hsupported, true_and]
      constructor
      · rintro ⟨path, hpath, tags, htags, rfl⟩
        exact ⟨hpath, rfl, htags⟩
      · rintro ⟨hpath, hvalid, htags⟩
        exact ⟨r.path, hpath, r.tags, htags, by rw [← hvalid]⟩
    · rename_i hsupported
      simp [hsupported]
  | null | bool | number | string | array => simp [ofJson]

/-- What is read is normal, whatever it is read from. -/
theorem isNormal_of_ofJson {v : Json} {r : Record} (h : ofJson v = .ok r) :
    r.valid = true ∧ ∀ t ∈ r.tags, IsNormal t := by
  obtain ⟨members, -, -, -, hvalid, htags⟩ := ofJson_eq_ok.1 h
  refine ⟨hvalid, ?_⟩
  unfold tagsOfMembers at htags
  split at htags
  · obtain hnil := Except.ok.inj htags
    simp [← hnil]
  · split at htags
    · exact isNormal_of_mapM htags
    · cases htags

/-- The tags of a source are read back from what is written for them, and so is every record that
has been read, from whatever value. These are the valid records whose tags are normal, with any
values in all other places. -/
theorem ofJson_normalizes :
    (∀ (path : Text) (valid : Bool) (tags : List SourceTag),
      ofJson (toJson { path := .string path, valid, tags := tags.map Tag.raw }) =
        .ok { path := .string path, valid := true, tags := tags.map Tag.raw }) ∧
    (∀ (v : Json) (r : Record), ofJson v = .ok r → ofJson r.toJson = .ok r) ∧
    ∀ r : Record, (∃ v, ofJson v = .ok r) ↔ r.valid = true ∧ ∀ t ∈ r.tags, IsNormal t := by
  have hback (r : Record) (hvalid : r.valid = true) (htags : ∀ t ∈ r.tags, IsNormal t) :
      ofJson r.toJson = .ok r := by
    rw [ofJson_toJson htags, ← hvalid]
  refine ⟨ofJson_toJson_raw, fun v r h => ?_, fun r => ⟨?_, ?_⟩⟩
  · obtain ⟨hvalid, htags⟩ := isNormal_of_ofJson h
    exact hback r hvalid htags
  · rintro ⟨v, h⟩
    exact isNormal_of_ofJson h
  · rintro ⟨hvalid, htags⟩
    exact ⟨r.toJson, hback r hvalid htags⟩

/-- A value that stands for a record in a roundabout way: its version is true, the line is a text,
the extras are the keys of an object, and no other place holds a text. -/
def looseRecord : Json :=
  .object [("format", .string "ptags-cache"), ("version", .bool true), ("file_path", .null),
    ("tags", .array [.object [("name", .bool false), ("path", .array []), ("pattern", .ofInt 1),
      ("kind", .string "c"), ("line", .string " +1_2 "), ("scope", .null),
      ("extras", .object [("a", .null), ("b", .null)]), ("access", .object [])]])]

/-- The tag in it as it is read. -/
def normalTag : RawTag where
  name := .bool false
  path := .array []
  pattern := .ofInt 1
  kind := .classDecl
  line := .ofInt 12
  scope := none
  extras := [.string "a", .string "b"]
  access := some (.object [])

theorem ofJson_normalizes_looseRecord :
    ofJson looseRecord = .ok ⟨.null, true, [normalTag]⟩ ∧
      ofJson (toJson ⟨.null, true, [normalTag]⟩) = .ok ⟨.null, true, [normalTag]⟩ := by
  have hread : ofJson looseRecord = .ok ⟨.null, true, [normalTag]⟩ := by cbv
  exact ⟨hread, ofJson_normalizes.2.1 looseRecord _ hread⟩

end TagsFile.Record
