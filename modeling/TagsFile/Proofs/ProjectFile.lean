import TagsFile.Config.Load
import TagsFile.Proofs.Lookup
import TagsFile.Proofs.SmallLetters

/-!
# What a project file may hold

The settings of a project are loaded from any file that is UTF-8 and whose settings, if it is a JSON
object, are sequences, with nothing but texts among the extensions. A file that is no JSON object
gives the defaults. Other files stop a run.

## Main definitions

* `Config.IsSequence`, `Config.IsTexts`: values that can be gone through, and those with texts only.
* `Config.HasUsableSettings`: objects whose settings can be used.

## Main statements

* `Config.load_returns_iff`: the files that settings are loaded from, and what is loaded.
-/

namespace TagsFile.Config

/-! ## Settings that can be used -/

/-- Whether a value is a sequence: an array, a text or an object. -/
def IsSequence : Json → Prop
  | .array _ | .string _ | .object _ => True
  | _ => False

/-- Whether a value is a sequence of texts. The parts of a text and the keys of an object are
texts. -/
def IsTexts : Json → Prop
  | .array items => ∀ item ∈ items, ∃ s, item = .string s
  | .string _ | .object _ => True
  | _ => False

/-- Whether the settings of an object can be used. A setting may be missing or null. -/
structure HasUsableSettings (members : List (Text × Json)) : Prop where
  extensions : ∀ v, Json.lookup "extensions" members = some v → v = .null ∨ IsTexts v
  excludePatterns : ∀ v, Json.lookup "excludePatterns" members = some v → v = .null ∨ IsSequence v

theorem exists_items_iff {v : Json} : (∃ is, items v = .ok is) ↔ IsSequence v := by
  cases v <;> simp [items, Json.items?, IsSequence]

theorem extensionText_eq_ok {v : Json} {text : Text} : extensionText v = .ok text ↔
    ∃ given, v = .string given ∧ text = normalizeExtension given := by
  cases v <;> simp [extensionText, eq_comm]

/-- Extensions are taken if all of them are texts. -/
theorem mapM_extensionText {is : List Json} {texts : List Text} :
    is.mapM extensionText = .ok texts ↔
      ∃ given : List Text, is = given.map .string ∧ texts = given.map normalizeExtension := by
  induction is generalizing texts with
  | nil =>
    constructor
    · intro h
      exact ⟨[], rfl, (Except.ok.inj h).symm⟩
    · rintro ⟨given, hgiven, rfl⟩
      obtain rfl := List.map_eq_nil_iff.1 hgiven.symm
      rfl
  | cons v is ih =>
    rw [List.mapM_cons]
    constructor
    · intro h
      cases hfirst : extensionText v with
      | error e =>
        rw [hfirst] at h
        cases h
      | ok text =>
        cases hothers : is.mapM extensionText with
        | error e =>
          rw [hfirst, hothers] at h
          cases h
        | ok others =>
          rw [hfirst, hothers] at h
          obtain rfl := Except.ok.inj h
          obtain ⟨first, rfl, rfl⟩ := extensionText_eq_ok.1 hfirst
          obtain ⟨given, rfl, rfl⟩ := ih.1 hothers
          exact ⟨first :: given, rfl, rfl⟩
    · rintro ⟨given, hgiven, rfl⟩
      obtain ⟨first, given, rfl, rfl, rfl⟩ := List.map_eq_cons_iff.1 hgiven.symm
      rw [ih.2 ⟨given, rfl, rfl⟩]
      rfl

theorem isTexts_iff {v : Json} :
    IsTexts v ↔ ∃ given : List Text, items v = .ok (given.map .string) := by
  cases v with
  | array is =>
    have hlift := Set.ext_iff.1 (Set.range_list_map Json.string) is
    simp only [Set.mem_range, Set.mem_ofPred_eq] at hlift
    simpa [IsTexts, items, Json.items?, eq_comm] using hlift.symm
  | string s =>
    refine ⟨fun _ => ⟨s.map ([·]), ?_⟩, fun _ => trivial⟩
    rw [List.map_map]
    rfl
  | object members =>
    refine ⟨fun _ => ⟨members.map (·.1), ?_⟩, fun _ => trivial⟩
    rw [List.map_map]
    rfl
  | _ => simp [IsTexts, items, Json.items?]

theorem settingOr_iff {P : Json → Prop} {default : Json} (hdefault : P default) {key : Text}
    {members : List (Text × Json)} : P (settingOr default key members) ↔
      ∀ v, Json.lookup key members = some v → v = .null ∨ P v := by
  unfold settingOr
  split <;> simp_all

/-! ## Normal extensions -/

/-- An extension is in lower case and starts with a point. -/
structure IsNormalExtension (t : Text) : Prop where
  lower_eq : Text.lower t = t
  head_eq : t.head? = some (.char '.')

theorem isNormalExtension_normalizeExtension (ext : Text) :
    IsNormalExtension (normalizeExtension ext) := by
  have hlower := Text.isLower_lower ext
  unfold normalizeExtension
  dsimp only
  split
  next hpoint => exact ⟨Text.lower_of_isLower hlower, hpoint⟩
  next =>
    refine ⟨Text.lower_of_isLower fun c hc => ?_, rfl⟩
    obtain hc | hc := List.mem_cons.1 hc
    · obtain rfl := CodePoint.char.inj hc
      decide +kernel
    · exact hlower c hc

/-! ## Settings that are loaded -/

/-- The settings of an object with usable settings. -/
theorem ofJson_object {members : List (Text × Json)} {config : Config} :
    ofJson (.object members) = .ok config ↔
      ∃ (given : List Text) (patterns : List Json),
        items (settingOr defaultExtensions "extensions" members) = .ok (given.map .string) ∧
        items (settingOr defaultExcludePatterns "excludePatterns" members) = .ok patterns ∧
        config = ⟨.array ((given.map normalizeExtension).map .string), .array patterns⟩ := by
  rw [ofJson]
  cases hextensions : items (settingOr defaultExtensions "extensions" members) with
  | error e => simp [bind, Except.bind]
  | ok is =>
    cases htexts : is.mapM extensionText with
    | error e =>
      have hnone (given : List Text) : is ≠ given.map .string := by
        rintro rfl
        rw [mapM_extensionText.2 ⟨given, rfl, rfl⟩] at htexts
        cases htexts
      simp [bind, Except.bind, htexts, hnone]
    | ok texts =>
      obtain ⟨given, rfl, rfl⟩ := mapM_extensionText.1 htexts
      have hgiven (others : List Text) :
          given.map Json.string = others.map Json.string ↔ given = others :=
        (List.map_injective_iff.2 fun _ _ => Json.string.inj).eq_iff
      cases items (settingOr defaultExcludePatterns "excludePatterns" members) with
      | error e => simp [bind, Except.bind, htexts]
      | ok patterns => simp [bind, Except.bind, pure, Except.pure, htexts, hgiven, eq_comm]

/-- The settings of an object are loaded exactly if they can be used. -/
theorem exists_ofJson_object {members : List (Text × Json)} :
    (∃ config, ofJson (.object members) = .ok config) ↔ HasUsableSettings members := by
  have hextensions : IsTexts (settingOr defaultExtensions "extensions" members) ↔ _ :=
    settingOr_iff (show IsTexts defaultExtensions by simp [defaultExtensions, IsTexts])
  have hpatterns : IsSequence (settingOr defaultExcludePatterns "excludePatterns" members) ↔ _ :=
    settingOr_iff (show IsSequence defaultExcludePatterns from trivial)
  constructor
  · rintro ⟨config, h⟩
    obtain ⟨given, patterns, hgiven, hfound, -⟩ := ofJson_object.1 h
    exact ⟨hextensions.1 (isTexts_iff.2 ⟨given, hgiven⟩),
      hpatterns.1 (exists_items_iff.1 ⟨patterns, hfound⟩)⟩
  · rintro ⟨husable, husable'⟩
    obtain ⟨given, hgiven⟩ := isTexts_iff.1 (hextensions.2 husable)
    obtain ⟨patterns, hfound⟩ := exists_items_iff.2 (hpatterns.2 husable')
    exact ⟨_, ofJson_object.2 ⟨given, patterns, hgiven, hfound, rfl⟩⟩

theorem load_of_read {files : FileSystem} {here : Here} {directory : Path} {bytes : List UInt8}
    (h : files.read here (directory.child fileName).text = .ok bytes) :
    load files here directory = ofBytes here.depths.values bytes := by
  have hentry : files.hasEntry here (directory.child fileName).text = .ok true := by
    unfold FileSystem.read at h
    unfold FileSystem.hasEntry
    split at h <;> simp_all
  rw [load, hentry, h]

section

variable {depth : Nat} {bytes : List UInt8}

/-- A value that is loaded is read from the bytes as UTF-8. Only from an object other settings than
the defaults are loaded. -/
theorem ofBytes_eq_ok {config : Config} : ofBytes depth bytes = .ok config ↔
    ∃ cs, Text.Utf8.decode? bytes = some cs ∧
      ((∃ members, Json.readWithin depth cs = .ok (.object members) ∧
          ofJson (.object members) = .ok config) ∨
        (Json.readWithin depth cs = .error .malformed ∨
          ∃ v, Json.readWithin depth cs = .ok v ∧ ∀ members, v ≠ .object members) ∧
            config = default) := by
  unfold ofBytes
  cases Text.Utf8.decode? bytes with
  | none => simp
  | some cs =>
    cases hread : Json.readWithin depth cs with
    | error e => cases e <;> simp [hread, eq_comm]
    | ok v =>
      cases v with
      | object members =>
        cases hofJson : ofJson (.object members) <;> simp [hread, hofJson, Except.mapError]
      | _ => simp [hread, ofJson, Except.mapError, eq_comm]

theorem ofBytes_eq_notUtf8 :
    ofBytes depth bytes = .error .notUtf8 ↔ Text.Utf8.decode? bytes = none := by
  unfold ofBytes
  cases Text.Utf8.decode? bytes with
  | none => simp
  | some cs =>
    cases hread : Json.readWithin depth cs with
    | error e => cases e <;> simp [hread]
    | ok v => cases hofJson : ofJson v <;> simp [hread, hofJson, Except.mapError]

/-- With a bounded depth, the bytes that give settings. -/
theorem exists_ofBytes_iff
    (hdepth : ∀ cs, Text.Utf8.decode? bytes = some cs → Json.nesting cs ≤ depth) :
    (∃ config, ofBytes depth bytes = .ok config) ↔
      ∃ cs, Text.Utf8.decode? bytes = some cs ∧ Json.readWithin depth cs ≠ .error .integerTooLong ∧
        ∀ members, Json.readWithin depth cs = .ok (.object members) →
          HasUsableSettings members := by
  constructor
  · rintro ⟨config, h⟩
    obtain ⟨cs, hcs, ⟨members, hread, hofJson⟩ | ⟨hread | ⟨v, hread, hv⟩, -⟩⟩ := ofBytes_eq_ok.1 h
    · refine ⟨cs, hcs, by simp [hread], fun members' hread' => ?_⟩
      obtain rfl : members = members' := by simpa [hread] using hread'
      exact exists_ofJson_object.1 ⟨config, hofJson⟩
    · exact ⟨cs, hcs, by simp [hread], by simp [hread]⟩
    · refine ⟨cs, hcs, by simp [hread], fun members hread' => ?_⟩
      exact absurd (Except.ok.inj (hread.symm.trans hread')) (hv members)
  · rintro ⟨cs, hcs, hinteger, husable⟩
    have hdeep := Json.readWithin_ne_tooDeep (hdepth cs hcs)
    cases hread : Json.readWithin depth cs with
    | error e =>
      cases e with
      | malformed => exact ⟨default, ofBytes_eq_ok.2 ⟨cs, hcs, .inr ⟨.inl hread, rfl⟩⟩⟩
      | integerTooLong => exact absurd hread hinteger
      | tooDeep => exact absurd hread hdeep
    | ok v =>
      by_cases hobject : ∃ members, v = .object members
      · obtain ⟨members, rfl⟩ := hobject
        obtain ⟨config, hofJson⟩ := exists_ofJson_object.2 (husable members hread)
        exact ⟨config, ofBytes_eq_ok.2 ⟨cs, hcs, .inl ⟨members, hread, hofJson⟩⟩⟩
      · push Not at hobject
        exact ⟨default, ofBytes_eq_ok.2 ⟨cs, hcs, .inr ⟨.inr ⟨v, hread, hobject⟩, rfl⟩⟩⟩

/-- Either the bytes hold an object, whose settings are taken, or the defaults are. -/
theorem ofBytes_cases {config : Config} (h : ofBytes depth bytes = .ok config) :
    (∃ members, Store.ReadsAs depth bytes (.object members) ∧
        ofJson (.object members) = .ok config) ∨
      (∀ members, ¬Store.ReadsAs depth bytes (.object members)) ∧ config = default := by
  obtain ⟨cs, hcs, ⟨members, hread, hofJson⟩ | ⟨hother, rfl⟩⟩ := ofBytes_eq_ok.1 h
  · exact .inl ⟨members, ⟨cs, hcs, hread⟩, hofJson⟩
  · refine .inr ⟨?_, rfl⟩
    rintro members ⟨cs', hcs', hread'⟩
    obtain rfl := Option.some.inj (hcs.symm.trans hcs')
    obtain hread | ⟨v, hread, hv⟩ := hother
    · rw [hread] at hread'
      cases hread'
    · exact hv members (Except.ok.inj (hread.symm.trans hread'))

theorem readsAs_unique {v v' : Json} (h : Store.ReadsAs depth bytes v)
    (h' : Store.ReadsAs depth bytes v') : v = v' := by
  obtain ⟨cs, hcs, hread⟩ := h
  obtain ⟨cs', hcs', hread'⟩ := h'
  obtain rfl := Option.some.inj (hcs.symm.trans hcs')
  exact Except.ok.inj (hread.symm.trans hread')

end

/-- Settings are loaded from a file of bounded depth exactly if it is UTF-8 without an integer that
is too long and its settings can be used. From a file that is no object the defaults are loaded, and
all extensions that are loaded are in lower case and start with a point. -/
theorem load_returns_iff {files : FileSystem} {here : Here} {directory : Path} {bytes : List UInt8}
    (hbytes : files.read here (directory.child fileName).text = .ok bytes)
    (hdepth : ∀ cs, Text.Utf8.decode? bytes = some cs → Json.nesting cs ≤ here.depths.values) :
    ((∃ config, load files here directory = .ok config) ↔
      ∃ cs, Text.Utf8.decode? bytes = some cs ∧
        Json.readWithin here.depths.values cs ≠ .error .integerTooLong ∧
        ∀ members, Json.readWithin here.depths.values cs = .ok (.object members) →
          HasUsableSettings members) ∧
    (load files here directory = .error .notUtf8 ↔ Text.Utf8.decode? bytes = none) ∧
    ∀ config, load files here directory = .ok config →
      ((∀ members, ¬Store.ReadsAs here.depths.values bytes (.object members)) → config = default) ∧
      ∃ texts : List Text, config.extensions = .array (texts.map .string) ∧
        (∀ text ∈ texts, IsNormalExtension text) ∧
        ∀ members (given : List Text), Store.ReadsAs here.depths.values bytes (.object members) →
          Json.lookup "extensions" members = some (.array (given.map .string)) →
          texts = given.map normalizeExtension := by
  rw [load_of_read hbytes]
  refine ⟨exists_ofBytes_iff hdepth, ofBytes_eq_notUtf8, fun config h => ?_⟩
  obtain ⟨members, hholds, hofJson⟩ | ⟨hnone, rfl⟩ := ofBytes_cases h
  · obtain ⟨given, patterns, hgiven, -, rfl⟩ := ofJson_object.1 hofJson
    refine ⟨fun hnone => absurd hholds (hnone members), _, rfl, ?_, ?_⟩
    · intro text htext
      obtain ⟨ext, -, rfl⟩ := List.mem_map.1 htext
      exact isNormalExtension_normalizeExtension ext
    · intro members' given' hholds' hlookup
      obtain rfl := Json.object.inj (readsAs_unique hholds hholds')
      rw [settingOr, hlookup] at hgiven
      have hsame : given'.map Json.string = given.map .string := Except.ok.inj hgiven
      rw [List.map_injective_iff.2 (fun _ _ => Json.string.inj) hsame]
  · have hphp : normalizeExtension ".php" = ".php" := by decide +kernel
    refine ⟨fun _ => rfl, [".php"], rfl, List.forall_mem_singleton.2 ?_, ?_⟩
    · exact hphp ▸ isNormalExtension_normalizeExtension ".php"
    · intro members given hholds
      exact absurd hholds (hnone members)

/-- A project with a file of settings. -/
def filesWithSettings (content : List UInt8) : FileSystem where
  entries := [(".ptags.json", .file content 0)]

/-- An extension in upper case, without its point. -/
def upperExtension : List UInt8 := Text.Utf8.encode "\x7b\"extensions\":[\"INC\"]\x7d"

/-- Settings are loaded from a file with an extension, and none from a file that is not UTF-8. -/
theorem load_returns_iff_filesWithSettings :
    (∃ config, load (filesWithSettings upperExtension) Here.root ⟨.root, []⟩ = .ok config ∧
      config.extensions = .array [.string ".inc"]) ∧
    load (filesWithSettings [0xFF]) Here.root ⟨.root, []⟩ = .error .notUtf8 := by
  have hbytes (content : List UInt8) : (filesWithSettings content).read Here.root
      ((⟨.root, []⟩ : Path).child fileName).text = .ok content := by
    cbv
  have hinvalid : Text.Utf8.decode? [0xFF] = none := by decide +kernel
  have hdepth : ∀ cs, Text.Utf8.decode? upperExtension = some cs →
      Json.nesting cs ≤ Here.root.depths.values := by
    have hnesting : (Text.Utf8.decode? upperExtension).map Json.nesting = some 2 := by
      decide +kernel
    intro cs hcs
    rw [hcs, Option.map_some, Option.some.injEq] at hnesting
    rw [hnesting]
    decide
  have hread : ∃ cs, Text.Utf8.decode? upperExtension = some cs ∧
      Json.readWithin Here.root.depths.values cs =
        .ok (.object [("extensions", .array [.string "INC"])]) :=
    ⟨_, by cbv, by cbv⟩
  have hnormal : normalizeExtension "INC" = ".inc" := by decide +kernel
  obtain ⟨cs, hcs, hvalue⟩ := hread
  have husable : HasUsableSettings [("extensions", .array [.string "INC"])] := by
    refine ⟨fun v hv => .inr ?_, fun v hv => ?_⟩
    · obtain rfl := Option.some.inj hv
      simp [IsTexts]
    · cases hv
  obtain ⟨hloaded, -, htexts⟩ := load_returns_iff (hbytes upperExtension) hdepth
  refine ⟨?_, (load_returns_iff (hbytes [0xFF]) (by simp [hinvalid])).2.1.2 hinvalid⟩
  obtain ⟨config, hconfig⟩ := hloaded.2 ⟨cs, hcs, by simp [hvalue], fun members h => by
    obtain rfl := Json.object.inj (Except.ok.inj (hvalue.symm.trans h))
    exact husable⟩
  obtain ⟨-, texts, hextensions, -, hgiven⟩ := htexts config hconfig
  obtain rfl := hgiven _ ["INC"] ⟨cs, hcs, hvalue⟩ rfl
  refine ⟨config, hconfig, hextensions.trans ?_⟩
  rw [List.map_singleton, hnormal, List.map_singleton]

end TagsFile.Config
