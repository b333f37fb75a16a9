import TagsFile.Cache.Store
import TagsFile.Proofs.JsonText
import TagsFile.Proofs.Utf8

/-!
# Entries read back

The bytes that a store writes for the tags of a source are read as these tags again, unless a line
has more digits than the reader takes.

## Main definitions

* `Tag.texts`: all texts of a tag.
* `Record.IsNormal`: tags as reading leaves them.
-/

namespace TagsFile

/-- All texts of a tag. -/
def Tag.texts (t : Tag α ν) : List α :=
  [t.name, t.path, t.pattern] ++ t.scope.toList ++ t.extras ++ t.access.toList

/-- Texts of strings are told apart as the strings are. -/
@[simp] theorem Text.ofString_inj {s t : String} : ofString s = ofString t ↔ s = t := by
  refine ⟨fun h => ?_, congrArg _⟩
  have hs := congrArg toString? h
  simpa using hs


namespace Record

open Json

variable {allowed : ReadFault → Prop} {depth : Nat}

theorem kind_letter (k : TagKind) : kind (.string k.letter) = .ok k := by
  simp [kind]

/-- Whether a tag is as reading leaves it: its line is an integer, and there is no scope and no
access rather than a null. -/
structure IsNormal (t : RawTag) : Prop where
  line : ∃ n : Int, t.line = .ofInt n
  scope : t.scope ≠ some .null
  access : t.access ≠ some .null

theorem isNormal_raw (t : SourceTag) : IsNormal t.raw where
  line := ⟨t.line, rfl⟩
  scope := by simp [Tag.raw, Tag.map]
  access := by simp [Tag.raw, Tag.map]

/-- A member that is written as null if there is nothing is read back. -/
theorem optional_of_getD {key : String} {members : List (Text × Json)} {v : Option Json}
    (hlookup : Json.lookup key members = some (v.getD .null)) (hv : v ≠ some .null) :
    optional key members = v := by
  rw [optional, hlookup]
  cases v with
  | none => rfl
  | some v =>
    cases v with
    | null => exact absurd rfl hv
    | _ => rfl

theorem tagOfJson_tagToJson {t : RawTag} (h : IsNormal t) : tagOfJson (tagToJson t) = .ok t := by
  obtain ⟨name, path, pattern, k, value, scope, items, access⟩ := t
  obtain ⟨⟨n, rfl⟩, hscope, haccess⟩ := h
  have hn : line (.ofInt n) = .ok n := rfl
  simp only [tagToJson, tagOfJson, tagOfMembers]
  rw [optional_of_getD (by simp [Json.lookup]) hscope,
    optional_of_getD (by simp [Json.lookup]) haccess]
  simp [require, extras, Json.lookup, bind, Except.bind, pure, Except.pure, kind_letter, hn,
    Json.items?]

theorem mapM_tagOfJson {tags : List RawTag} (h : ∀ t ∈ tags, IsNormal t) :
    (tags.map tagToJson).mapM tagOfJson = .ok tags := by
  induction tags with
  | nil => rfl
  | cons t tags ih =>
    rw [List.map_cons, List.mapM_cons, tagOfJson_tagToJson (h t List.mem_cons_self),
      ih fun t ht => h t (List.mem_cons_of_mem _ ht)]
    rfl

/-- A record is read back from what is written for it, if its tags are normal. -/
theorem ofJson_toJson {r : Record} (h : ∀ t ∈ r.tags, IsNormal t) :
    ofJson r.toJson = .ok { r with valid := true } := by
  simp only [toJson, ofJson, isSupported, tagsOfMembers, require, Json.lookup,
    Text.ofString_inj, String.reduceEq, if_true, if_false, Json.items?, mapM_tagOfJson h]
  simp [Json.string?, Json.isOne, Json.ofInt, version, bind, Except.bind, pure, Except.pure]

theorem ofJson_toJson_raw (path : Text) (valid : Bool) (tags : List SourceTag) :
    ofJson (toJson { path := .string path, valid, tags := tags.map Tag.raw }) =
      .ok { path := .string path, valid := true, tags := tags.map Tag.raw } := by
  apply ofJson_toJson
  intro t ht
  obtain ⟨source, -, rfl⟩ := List.mem_map.1 ht
  exact isNormal_raw source

/-! ## Documents -/

theorem readsBack_tagToJson {t : SourceTag} (htexts : ∀ s ∈ t.texts, Text.unpaired s)
    (hline : t.line.natAbs < 10 ^ Integer.maxDigits ∨ allowed .integerTooLong) :
    ReadsBack allowed (depth + 2) (tagToJson t.raw) := by
  have hoption (o : Option Text) (ho : ∀ s ∈ o, s ∈ t.texts) :
      ReadsBack allowed (depth + 1) ((o.map Json.string).getD .null) := by
    cases o with
    | none => exact readsBack_null
    | some s => exact readsBack_string (htexts s (ho s rfl))
  have hextras : ∀ v ∈ t.extras.map Json.string, ReadsBack allowed depth v := by
    intro v hv
    obtain ⟨s, hs, rfl⟩ := List.mem_map.1 hv
    exact readsBack_string (htexts s (by simp [Tag.texts, hs]))
  apply readsBack_object
  · simp
  · simp [Text.unpaired_ofString]
  · simp only [List.mem_cons, List.not_mem_nil, or_false, forall_eq_or_imp, forall_eq]
    refine ⟨readsBack_string (htexts _ ?_), readsBack_string (htexts _ ?_),
      readsBack_string (htexts _ ?_), readsBack_string (Text.unpaired_ofString _),
      readsBack_ofInt hline, hoption t.scope ?_, readsBack_array hextras, hoption t.access ?_⟩
    all_goals simp +contextual [Tag.texts]

theorem readsBack_toJson {path : Text} {tags : List SourceTag} (hpath : path.unpaired)
    (htexts : ∀ t ∈ tags, ∀ s ∈ t.texts, Text.unpaired s)
    (hlines : (∀ t ∈ tags, t.line.natAbs < 10 ^ Integer.maxDigits) ∨ allowed .integerTooLong) :
    ReadsBack allowed (depth + 4) (toJson { path := .string path, tags := tags.map Tag.raw }) := by
  have htags : ∀ v ∈ (tags.map Tag.raw).map tagToJson, ReadsBack allowed (depth + 2) v := by
    intro v hv
    rw [List.map_map] at hv
    obtain ⟨t, ht, rfl⟩ := List.mem_map.1 hv
    exact readsBack_tagToJson (htexts t ht) (hlines.imp_left fun h => h t ht)
  apply readsBack_object
  · simp
  · simp [Text.unpaired_ofString]
  · simp only [List.mem_cons, List.not_mem_nil, or_false, forall_eq_or_imp, forall_eq]
    have hversion : version.natAbs < 10 ^ Integer.maxDigits :=
      Nat.one_lt_pow (by decide) (by decide)
    exact ⟨readsBack_string (Text.unpaired_ofString _), readsBack_ofInt (.inl hversion),
      readsBack_string hpath, readsBack_array htags⟩

end Record

namespace Store

variable {path : Text} {tags : List SourceTag}

/-- An entry holds the tags it was made from, unless a line in it is too long for the reader. -/
theorem decodeEntry_encodeEntry_cases (depths : Depths) (hpath : path.unpaired)
    (htexts : ∀ t ∈ tags, ∀ s ∈ t.texts, Text.unpaired s) :
    decodeEntry depths.values (encodeEntry path (tags.map Tag.raw)) = .ok (tags.map Tag.raw) ∨
      decodeEntry depths.values (encodeEntry path (tags.map Tag.raw)) = .error .notJson := by
  have hback : Json.ReadsBack (· = .integerTooLong) depths.values
      (Record.toJson { path := .string path, tags := tags.map Tag.raw }) := by
    rw [← Nat.sub_add_cancel depths.four_le_values]
    exact Record.readsBack_toJson hpath htexts (.inr rfl)
  rw [decodeEntry, encodeEntry, Text.Utf8.encode_eq_bytesOf, Text.Utf8.decode?_bytesOf, Json.render,
    String.toList_ofList]
  obtain hread | ⟨e, rfl, hread⟩ := Json.readWithin_renderValue hback
  · left
    simp [hread, Record.ofJson_toJson_raw]
  · right
    simp [hread]

theorem decodeEntry_encodeEntry (depths : Depths) (hpath : path.unpaired)
    (htexts : ∀ t ∈ tags, ∀ s ∈ t.texts, Text.unpaired s)
    (hlines : ∀ t ∈ tags, t.line.natAbs < 10 ^ Integer.maxDigits) :
    decodeEntry depths.values (encodeEntry path (tags.map Tag.raw)) = .ok (tags.map Tag.raw) := by
  have hback : Json.ReadsBack (fun _ => False) depths.values
      (Record.toJson { path := .string path, tags := tags.map Tag.raw }) := by
    rw [← Nat.sub_add_cancel depths.four_le_values]
    exact Record.readsBack_toJson hpath htexts (.inl hlines)
  rw [decodeEntry, encodeEntry, Text.Utf8.encode_eq_bytesOf, Text.Utf8.decode?_bytesOf, Json.render,
    String.toList_ofList]
  obtain hread | ⟨e, he, -⟩ := Json.readWithin_renderValue hback
  · simp [hread, Record.ofJson_toJson_raw]
  · exact he.elim

end Store
end TagsFile
