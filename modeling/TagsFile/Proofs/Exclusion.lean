import TagsFile.Config.Basic
import TagsFile.Proofs.GlobTexts
import TagsFile.Proofs.Spelling

/-!
# What exclude patterns exclude

A pattern stands for up to four globs. Together they make patterns for directories: one that ends in
`/**` excludes what it names with all that is below, and one that also starts with `**/` does so
wherever the directory is.

## Main definitions

* `Config.HasPatterns`: settings whose exclude patterns are texts.

## Main statements

* `Config.excludedBy_slash`: what such a pattern excludes, it excludes with all that is below.
* `Config.directory_patterns_exclude`: the paths that a pattern for a directory excludes.
-/

namespace TagsFile

/-! ## Slashes -/

theorem dropSlashes_append (s t : Text) :
    dropSlashes (s ++ t) = if dropSlashes t = [] then dropSlashes s else s ++ dropSlashes t := by
  simp only [dropSlashes, List.reverse_append, List.dropWhile_append, List.reverse_eq_nil_iff,
    List.isEmpty_iff]
  split <;> simp

theorem exists_slashes (t : Text) : ∃ n, t = dropSlashes t ++ List.replicate n (.char '/') := by
  obtain ⟨slashes, hslashes, ht⟩ : ∃ slashes : Text, (∀ c ∈ slashes, c = .char '/') ∧
      t = dropSlashes t ++ slashes := by
    refine ⟨(t.reverse.takeWhile (· = .char '/')).reverse, fun c hc => ?_, ?_⟩
    · simpa using List.all_eq_true.1 List.all_takeWhile c (List.mem_reverse.1 hc)
    · rw [dropSlashes, ← List.reverse_append, List.takeWhile_append_dropWhile, List.reverse_reverse]
  exact ⟨slashes.length, by rwa [← List.eq_replicate_of_mem hslashes]⟩

/-- What follows a slash is gone with the slashes at the end, or is behind a slash without them. -/
theorem dropSlashes_slash (s t : Text) : dropSlashes (s ++ .char '/' :: t) = dropSlashes s ∨
    ∃ y : Text, dropSlashes (s ++ .char '/' :: t) = dropSlashes s ++ .char '/' :: y := by
  have hslash : dropSlashes (.char '/' :: t) =
      if dropSlashes t = [] then [] else .char '/' :: dropSlashes t :=
    dropSlashes_append [.char '/'] t
  rw [dropSlashes_append, hslash]
  by_cases ht : dropSlashes t = []
  · simp [ht]
  · right
    obtain ⟨n, hs⟩ := exists_slashes s
    refine ⟨List.replicate n (.char '/') ++ dropSlashes t, ?_⟩
    rw [if_neg ht, if_neg (by simp)]
    conv_lhs => rw [hs]
    rw [List.append_assoc, List.append_cons (List.replicate n _), ← List.replicate_succ',
      List.replicate_succ, List.cons_append]

/-- Texts joined by slashes, with one more slash in front. -/
theorem slash_join {parts : List Text} (h : parts ≠ []) :
    .char '/' :: Text.join "/" parts = parts.flatMap (.char '/' :: ·) := by
  induction parts with
  | nil => exact absurd rfl h
  | cons a parts ih =>
    cases parts with
    | nil => simp
    | cons b parts =>
      rw [List.flatMap_cons, ← ih (by simp), Text.join_cons_cons, List.append_assoc]
      rfl

/-- A text with a slash in front and one at the end. -/
def betweenSlashes (t : Text) : Text := .char '/' :: (t ++ [.char '/'])

/-- A piece of a text is what stands in it between two slashes, if there is one more at either end.
-/
theorem mem_pieces_iff {d n : Text} (hd : d ≠ []) (hslash : .char '/' ∉ d) :
    d ∈ pieces n ↔ betweenSlashes d <:+: betweenSlashes n := by
  constructor
  · intro hmem
    obtain ⟨as, bs, hpieces⟩ := List.append_of_mem hmem
    have hn : .char '/' :: n = (as ++ d :: bs).flatMap (CodePoint.char '/' :: ·) := by
      rw [← hpieces, pieces, ← slash_join (splitAtEach_ne_nil _ n)]
      exact congrArg _ (join_pieces n).symm
    obtain ⟨rest, hrest⟩ : ∃ rest, bs.flatMap (CodePoint.char '/' :: ·) ++ [.char '/'] =
        .char '/' :: rest := by
      cases bs with
      | nil => exact ⟨[], rfl⟩
      | cons b bs => exact ⟨_, rfl⟩
    refine ⟨as.flatMap (CodePoint.char '/' :: ·), rest, ?_⟩
    calc as.flatMap (CodePoint.char '/' :: ·) ++ betweenSlashes d ++ rest
      _ = as.flatMap (CodePoint.char '/' :: ·) ++ .char '/' :: (d ++ .char '/' :: rest) := by
        simp [betweenSlashes]
      _ = (as ++ d :: bs).flatMap (CodePoint.char '/' :: ·) ++ [.char '/'] := by simp [← hrest]
      _ = betweenSlashes n := by rw [← hn]; rfl
  · rintro ⟨s, t, hst⟩
    have hwhole : s ++ .char '/' :: (d ++ .char '/' :: t) = .char '/' :: (n ++ [.char '/']) := by
      simpa [betweenSlashes] using hst
    have hsplit := congrArg (splitAtEach (CodePoint.char '/')) hwhole
    rw [splitAtEach_append, splitAtEach_append, splitAtEach_of_notMem hslash, splitAtEach,
      if_pos rfl, splitAtEach_append] at hsplit
    have hmem : d ∈ [] :: (splitAtEach (.char '/') n ++ splitAtEach (.char '/') []) := by
      rw [← hsplit]
      simp
    simpa [splitAtEach, hd, pieces] using hmem

namespace Config

/-! ## Settings of texts -/

/-- Settings whose exclude patterns are the given texts. -/
def HasPatterns (config : Config) (patterns : List Text) : Prop :=
  items config.excludePatterns = .ok (patterns.map .string)

theorem excludedByAny_texts (path : Text) (patterns : List Text) :
    excludedByAny path (patterns.map .string) = .ok (patterns.any (excludedBy path)) := by
  induction patterns with
  | nil => rfl
  | cons pattern patterns ih =>
    rw [List.map_cons, excludedByAny, List.any_cons, ih]
    cases excludedBy path pattern <;> rfl

/-- A path is included if no pattern excludes it. -/
theorem includes_eq {config : Config} {patterns : List Text} (h : config.HasPatterns patterns)
    (p : Text) : config.includes p = .ok (!patterns.any (excludedBy (normalizePath p))) := by
  rw [includes, h]
  simp [bind, Except.bind, pure, Except.pure, excludedByAny_texts]

/-! ## The globs of a pattern -/

theorem withoutTail_eq_some {w v : Text} : withoutTail w = some v ↔ w = v ++ "/**" := by
  rw [withoutTail]
  constructor
  · intro h
    split at h
    · rename_i hsuffix
      obtain ⟨u, rfl⟩ := List.isSuffixOf_iff_suffix.1 hsuffix
      obtain rfl : u = v := by simpa [Text.ofString] using h
      rfl
    · cases h
  · rintro rfl
    simp [Text.ofString]

theorem mem_withoutLead {pattern w : Text} :
    w ∈ withoutLead pattern ↔ w = pattern ∨ pattern = "**/" ++ w := by
  rw [withoutLead]
  split
  · rename_i hprefix
    obtain ⟨u, rfl⟩ := List.isPrefixOf_iff_prefix.1 hprefix
    simp [Text.ofString, eq_comm]
  · rename_i hprefix
    have hne : pattern ≠ "**/" ++ w := by
      rintro rfl
      simp at hprefix
    simp [hne]

/-- A pattern excludes what fits it, with or without the stars at its ends. -/
theorem excludedBy_iff {n pattern : Text} : excludedBy n pattern = true ↔
    ∃ w, (w = pattern ∨ pattern = "**/" ++ w) ∧
      (Glob.fits w n = true ∨ ∃ v, w = v ++ "/**" ∧ Glob.fits v n = true) := by
  simp only [excludedBy, variants, List.any_eq_true, List.mem_append, List.mem_filterMap,
    mem_withoutLead, withoutTail_eq_some]
  grind

/-! ## All that is below -/

/-- A path with slashes only. -/
def withSlashes (p : Text) : Text := p.map fun c => if c = .char '\\' then .char '/' else c

/-- A path without a leading `./`. -/
def withoutDot (t : Text) : Text := if (Text.ofString "./").isPrefixOf t then t.drop 2 else t

theorem normalizePath_eq (p : Text) : normalizePath p = dropSlashes (withoutDot (withSlashes p)) :=
  rfl

theorem withSlashes_slash (p q : Text) :
    withSlashes (p ++ .char '/' :: q) = withSlashes p ++ .char '/' :: withSlashes q := by
  simp [withSlashes]

theorem withSlashes_ne_dot {p : Text} (h : p ≠ ".") : withSlashes p ≠ "." := by
  intro hdot
  have hlength : p.length = 1 := by
    simpa [withSlashes, Text.ofString] using congrArg List.length hdot
  obtain ⟨c, rfl⟩ := List.length_eq_one_iff.1 hlength
  by_cases hc : c = .char '\\'
  · subst hc
    revert hdot
    decide
  · apply h
    simpa [withSlashes, hc] using hdot

theorem withoutDot_slash {t : Text} (h : t ≠ ".") (u : Text) :
    withoutDot (t ++ .char '/' :: u) = withoutDot t ++ .char '/' :: u := by
  match t with
  | [] => simp [withoutDot, Text.ofString, List.isPrefixOf]
  | [c] =>
    have hc : CodePoint.char '.' ≠ c := by
      rintro rfl
      exact h rfl
    simp [withoutDot, Text.ofString, List.isPrefixOf, hc]
  | a :: b :: t =>
    have hsame : (Text.ofString "./").isPrefixOf (a :: b :: t ++ .char '/' :: u) =
        (Text.ofString "./").isPrefixOf (a :: b :: t) := by simp [Text.ofString, List.isPrefixOf]
    rw [withoutDot, withoutDot, hsame]
    split <;> rfl

/-- What is below a path is below it as patterns see it, or just as they see the path itself. The
dot is different: it vanishes in front of a slash. -/
theorem normalizePath_slash {p : Text} (h : p ≠ ".") (q : Text) :
    normalizePath (p ++ .char '/' :: q) = normalizePath p ∨
      ∃ y : Text, normalizePath (p ++ .char '/' :: q) = normalizePath p ++ .char '/' :: y := by
  simp only [normalizePath_eq, withSlashes_slash, withoutDot_slash (withSlashes_ne_dot h)]
  exact dropSlashes_slash _ _

/-- The stars at the end of a pattern are there without those at its front too, unless the pattern
is made of stars only. -/
theorem eq_or_tail_of_lead {w : Text} (h : ("/**" : Text) <:+ ("**/" : Text) ++ w) :
    w = "**" ∨ ("/**" : Text) <:+ w := by
  by_cases hlength : 3 ≤ w.length
  · exact .inr (List.suffix_of_suffix_length_le h (List.suffix_append _ _) hlength)
  · rw [List.suffix_iff_eq_drop] at h
    left
    match w with
    | [] | [_] => simp [Text.ofString] at h
    | [_, _] => simpa [Text.ofString, eq_comm] using h
    | _ :: _ :: _ :: _ => simp at hlength

/-- What a pattern that ends in `/**` excludes, it excludes with all that is below. -/
theorem excludedBy_slash {n pattern : Text} (htail : ("/**" : Text) <:+ pattern)
    (h : excludedBy n pattern = true) (y : Text) :
    excludedBy (n ++ .char '/' :: y) pattern = true := by
  obtain ⟨w, hw, hfits⟩ := excludedBy_iff.1 h
  refine excludedBy_iff.2 ⟨w, hw, .inl ?_⟩
  have hstars : w = "**" ∨ ("/**" : Text) <:+ w := by
    obtain rfl | rfl := hw
    · exact .inr htail
    · exact eq_or_tail_of_lead htail
  obtain rfl | ⟨v, rfl⟩ := hstars
  · exact Glob.fits_stars _
  · rw [Glob.fits_tail]
    obtain hfits | ⟨v', hv', hfits⟩ := hfits
    · obtain ⟨as, bs, rfl, has⟩ := (Glob.fits_tail v n).1 hfits
      exact ⟨as, bs ++ .char '/' :: y, by simp, has⟩
    · obtain rfl := List.append_cancel_right hv'
      exact ⟨n, y, rfl, hfits⟩

/-- What such patterns exclude, they exclude with all that is below. The dot is different, for it
vanishes from the paths below it. -/
theorem includes_slash {config : Config} {patterns : List Text} (h : config.HasPatterns patterns)
    (htails : ∀ pattern ∈ patterns, ("/**" : Text) <:+ pattern) {p : Text} (hp : p ≠ ".")
    (hout : config.includes p = .ok false) (q : Text) :
    config.includes (p ++ .char '/' :: q) = .ok false := by
  have hany : patterns.any (excludedBy (normalizePath p)) = true := by
    simpa [includes_eq h] using hout
  obtain ⟨pattern, hpattern, hexcluded⟩ := List.any_eq_true.1 hany
  have hbelow : excludedBy (normalizePath (p ++ .char '/' :: q)) pattern = true := by
    obtain hsame | ⟨y, hy⟩ := normalizePath_slash hp q
    · rw [hsame, hexcluded]
    · rw [hy]
      exact excludedBy_slash (htails pattern hpattern) hexcluded y
  have hany' : patterns.any (excludedBy (normalizePath (p ++ .char '/' :: q))) = true :=
    List.any_eq_true.2 ⟨pattern, hpattern, hbelow⟩
  rw [includes_eq h, hany']
  rfl

/-! ## Patterns for directories -/

/-- A slash behind a directory and one behind a path compare them as if they were one path. -/
theorem eq_or_slash_iff {d n : Text} :
    n = d ∨ d ++ [CodePoint.char '/'] <+: n ↔
      d ++ [CodePoint.char '/'] <+: n ++ [CodePoint.char '/'] := by
  constructor
  · rintro (rfl | h)
    · exact List.prefix_refl _
    · exact h.trans (List.prefix_append _ _)
  · intro h
    obtain heq | h := List.prefix_concat_iff.1 h
    · exact .inl (List.append_cancel_right heq).symm
    · exact .inr h

theorem fits_directory_iff {d : Text} (hd : Glob.IsLiteral d) (n : Text) :
    Glob.fits (d ++ "/**") n = true ∨ Glob.fits d n = true ↔ n = d ∨ d ++ [.char '/'] <+: n := by
  rw [Glob.fits_tail, Glob.fits_iff_eq hd, or_comm]
  constructor
  · rintro (rfl | ⟨as, bs, rfl, has⟩)
    · exact .inl rfl
    · obtain rfl := (Glob.fits_iff_eq hd as).1 has
      exact .inr ⟨bs, by simp⟩
  · rintro (rfl | ⟨bs, rfl⟩)
    · exact .inl rfl
    · exact .inr ⟨d, bs, by simp, (Glob.fits_iff_eq hd d).2 rfl⟩

/-- The paths that a pattern for a directory at the top excludes. -/
theorem excludedBy_directory_iff {d : Text} (hne : d ≠ []) (hd : Glob.IsLiteral d) (n : Text) :
    excludedBy n (d ++ "/**") = true ↔ n = d ∨ d ++ [.char '/'] <+: n := by
  rw [← fits_directory_iff hd, excludedBy_iff]
  constructor
  · rintro ⟨w, rfl | hw, hfits⟩
    · obtain hfits | ⟨v, hv, hfits⟩ := hfits
      · exact .inl hfits
      · exact .inr (List.append_cancel_right hv ▸ hfits)
    · obtain ⟨c, d, rfl⟩ := List.exists_cons_of_ne_nil hne
      obtain rfl : c = .char '*' := List.head_eq_of_cons_eq hw
      exact absurd (List.mem_cons_self ..) hd.1
  · intro hfits
    refine ⟨_, .inl rfl, hfits.imp_right fun hfits => ⟨d, rfl, hfits⟩⟩

/-- A directory stands between slashes in a path if the path, or what is behind one of its slashes,
starts with it. -/
theorem betweenSlashes_infix_iff {d n : Text} : betweenSlashes d <:+: betweenSlashes n ↔
    d ++ [CodePoint.char '/'] <+: n ++ [CodePoint.char '/'] ∨
      ∃ as bs : Text, n = as ++ .char '/' :: bs ∧
        d ++ [CodePoint.char '/'] <+: bs ++ [CodePoint.char '/'] := by
  constructor
  · rintro ⟨s, t, hst⟩
    cases s with
    | nil => exact .inl ⟨t, List.tail_eq_of_cons_eq hst⟩
    | cons c s =>
      have htail : s ++ .char '/' :: (d ++ .char '/' :: t) = n ++ [.char '/'] := by
        simpa [betweenSlashes] using List.tail_eq_of_cons_eq hst
      right
      obtain rfl | ⟨t, last, rfl⟩ := List.eq_nil_or_concat t
      · have hn : (s ++ .char '/' :: d) ++ [.char '/'] = n ++ [.char '/'] := by simpa using htail
        exact ⟨s, d, (List.append_cancel_right hn).symm, List.prefix_refl _⟩
      · have hn : (s ++ .char '/' :: (d ++ .char '/' :: t)) ++ [last] = n ++ [.char '/'] := by
          simpa using htail
        exact ⟨s, d ++ .char '/' :: t, (List.append_inj' hn rfl).1.symm, t ++ [.char '/'], by simp⟩
  · rintro (⟨t, ht⟩ | ⟨as, bs, rfl, t, ht⟩)
    · exact ⟨[], t, congrArg (CodePoint.char '/' :: ·) ht⟩
    · exact ⟨.char '/' :: as, t, by simp [betweenSlashes, ← ht]⟩

/-- The paths that a pattern for a directory at any depth excludes. -/
theorem excludedBy_anywhere_iff {d : Text} (hd : Glob.IsLiteral d) (n : Text) :
    excludedBy n ("**/" ++ (d ++ "/**")) = true ↔ betweenSlashes d <:+: betweenSlashes n := by
  rw [betweenSlashes_infix_iff, excludedBy_iff]
  simp only [← eq_or_slash_iff, ← fits_directory_iff hd]
  constructor
  · rintro ⟨w, rfl | hw, hfits⟩
    · obtain hfits | ⟨v, hv, hfits⟩ := hfits
      · obtain ⟨as, bs, rfl, hbs⟩ := (Glob.fits_lead _ n).1 hfits
        exact .inr ⟨as, bs, rfl, .inl hbs⟩
      · rw [← List.append_assoc] at hv
        obtain rfl := List.append_cancel_right hv
        obtain ⟨as, bs, rfl, hbs⟩ := (Glob.fits_lead _ n).1 hfits
        exact .inr ⟨as, bs, rfl, .inr hbs⟩
    · obtain rfl := List.append_cancel_left hw
      exact .inl (hfits.imp_right fun ⟨v, hv, hfits⟩ => List.append_cancel_right hv ▸ hfits)
  · rintro (hfits | ⟨as, bs, hn, hfits⟩)
    · exact ⟨_, .inr rfl, hfits.imp_right fun hfits => ⟨d, rfl, hfits⟩⟩
    · refine ⟨_, .inl rfl, hfits.imp (fun hfits => ?_) fun hfits => ?_⟩
      · exact (Glob.fits_lead _ n).2 ⟨as, bs, hn, hfits⟩
      · refine ⟨"**/" ++ d, (List.append_assoc ..).symm, ?_⟩
        exact (Glob.fits_lead _ n).2 ⟨as, bs, hn, hfits⟩

/-- A pattern for a directory, given by its name alone, excludes the directory and all that is below
it: at the top, or with `**/` in front anywhere. Of several patterns each excludes what it excludes
alone. -/
theorem directory_patterns_exclude {d : Text} (hne : d ≠ []) (hd : Glob.IsLiteral d) (p : Text) :
    (∀ config : Config, config.HasPatterns ["**/" ++ (d ++ "/**")] →
      config.includes p =
        .ok (!decide (betweenSlashes d <:+: betweenSlashes (normalizePath p))) ∧
      (.char '/' ∉ d → config.includes p = .ok (!decide (d ∈ pieces (normalizePath p))))) ∧
    (∀ config : Config, config.HasPatterns [d ++ "/**"] →
      config.includes p =
        .ok (!decide (normalizePath p = d ∨ d ++ [.char '/'] <+: normalizePath p))) ∧
    ∀ (config : Config) (patterns : List Text), config.HasPatterns patterns →
      config.includes p = .ok (!patterns.any fun pattern => decide
        (({ config with excludePatterns := .array [.string pattern] } : Config).includes p =
          .ok false)) := by
  refine ⟨fun config h => ?_, fun config h => ?_, fun config patterns h => ?_⟩
  · have hincludes : config.includes p =
        .ok (!decide (betweenSlashes d <:+: betweenSlashes (normalizePath p))) := by
      rw [includes_eq h, List.any_cons, List.any_nil, Bool.or_false]
      simp only [← excludedBy_anywhere_iff hd, Bool.decide_eq_true]
    refine ⟨hincludes, fun hslash => ?_⟩
    simp only [hincludes, mem_pieces_iff hne hslash]
  · rw [includes_eq h, List.any_cons, List.any_nil, Bool.or_false]
    simp only [← excludedBy_directory_iff hne hd, Bool.decide_eq_true]
  · have halone (pattern : Text) :
        ({ config with excludePatterns := .array [.string pattern] } : Config).includes p =
          .ok (!excludedBy (normalizePath p) pattern) := by
      have honly : ({ config with excludePatterns := .array [.string pattern] } :
          Config).HasPatterns [pattern] := rfl
      simp [includes_eq honly]
    simp [includes_eq h, halone]

theorem directory_patterns_exclude_nodeModules :
    ("node_modules" : Text) ≠ [] ∧ Glob.IsLiteral "node_modules" ∧
      (Config.mk .null (.array [.string "**/node_modules/**"])).includes "./web\\node_modules//" =
        .ok false := by
  have hd : Glob.IsLiteral "node_modules" := by simp [Glob.IsLiteral, Text.ofString]
  have hpattern : HasPatterns ⟨.null, .array [.string "**/node_modules/**"]⟩
      ["**/" ++ ("node_modules" ++ "/**")] := rfl
  refine ⟨by decide, hd, ?_⟩
  rw [((directory_patterns_exclude (by decide) hd _).1 _ hpattern).1]
  decide

end Config
end TagsFile
