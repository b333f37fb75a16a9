import TagsFile.Glob

/-!
# The texts that fit a pattern

A pattern whose parts are read apart from each other is fitted by the texts that are made of fitting
parts. What follows a slash is read apart from what is in front of it, unless it closes a set that
is opened there.

## Main statements

* `Glob.accepts_append`: what pieces one after the other accept.
* `Glob.ofText_append_slash`: how a pattern is read around a slash.
* `Glob.fits_lead`, `Glob.fits_tail`, `Glob.fits_iff_eq`: the texts that fit patterns with stars at
  the front, with stars at the end, and without anything special.
-/

namespace TagsFile

/-! ## Pieces -/

namespace Glob

theorem accepts_star_iff (g : Glob) (cs : Text) :
    accepts (.star :: g) cs = true ↔ ∃ as bs, cs = as ++ bs ∧ accepts g bs = true := by
  induction cs with
  | nil =>
    rw [accepts_star_nil]
    constructor
    · intro h
      exact ⟨[], [], rfl, h⟩
    · rintro ⟨as, bs, hnil, h⟩
      obtain ⟨-, rfl⟩ := List.append_eq_nil_iff.1 hnil.symm
      exact h
  | cons c cs ih =>
    rw [accepts_star_cons, Bool.or_eq_true, ih]
    constructor
    · rintro (h | ⟨as, bs, rfl, h⟩)
      · exact ⟨[], c :: cs, rfl, h⟩
      · exact ⟨c :: as, bs, rfl, h⟩
    · rintro ⟨as, bs, hcs, h⟩
      cases as with
      | nil =>
        subst hcs
        exact .inl h
      | cons a as =>
        cases hcs
        exact .inr ⟨as, bs, rfl, h⟩

/-- Pieces one after the other accept the texts of the first ones followed by those of the others.
-/
theorem accepts_append (g h : Glob) (cs : Text) : accepts (g ++ h) cs = true ↔
    ∃ as bs, cs = as ++ bs ∧ accepts g as = true ∧ accepts h bs = true := by
  induction g generalizing cs with
  | nil =>
    constructor
    · intro hcs
      exact ⟨[], cs, rfl, rfl, hcs⟩
    · rintro ⟨as, bs, rfl, has, hbs⟩
      obtain rfl := List.isEmpty_iff.1 has
      exact hbs
  | cons piece g ih =>
    by_cases hpiece : piece = .star
    · subst hpiece
      simp only [List.cons_append, accepts_star_iff, ih]
      constructor
      · rintro ⟨skipped, _, rfl, as, bs, rfl, has, hbs⟩
        exact ⟨skipped ++ as, bs, (List.append_assoc ..).symm, ⟨skipped, as, rfl, has⟩, hbs⟩
      · rintro ⟨_, bs, rfl, ⟨skipped, as, rfl, has⟩, hbs⟩
        exact ⟨skipped, as ++ bs, List.append_assoc .., as, bs, rfl, has, hbs⟩
    · cases cs with
      | nil => simp [accepts_one_nil hpiece]
      | cons c cs =>
        rw [List.cons_append, accepts_one_cons hpiece, Bool.and_eq_true, ih]
        constructor
        · rintro ⟨hc, as, bs, rfl, has, hbs⟩
          exact ⟨c :: as, bs, rfl, by rw [accepts_one_cons hpiece, hc, has]; rfl, hbs⟩
        · rintro ⟨as, bs, hcs, has, hbs⟩
          cases as with
          | nil => simp [accepts_one_nil hpiece] at has
          | cons a as =>
            cases hcs
            rw [accepts_one_cons hpiece, Bool.and_eq_true] at has
            exact ⟨has.1, as, bs, rfl, has.2, hbs⟩

theorem accepts_point_iff (c : CodePoint) (g : Glob) (cs : Text) :
    accepts (.point c :: g) cs = true ↔ ∃ bs, cs = c :: bs ∧ accepts g bs = true := by
  have hpoint : GlobPiece.point c ≠ .star := by simp
  cases cs with
  | nil => simp [accepts_one_nil hpoint]
  | cons c' cs =>
    rw [accepts_one_cons hpoint, Bool.and_eq_true]
    constructor
    · rintro ⟨hc, hcs⟩
      obtain rfl : c' = c := by simpa [GlobPiece.accepts] using hc
      exact ⟨cs, rfl, hcs⟩
    · rintro ⟨bs, hbs, h⟩
      cases hbs
      exact ⟨by simp [GlobPiece.accepts], h⟩

theorem accepts_points (d cs : Text) : accepts (d.map .point) cs = true ↔ cs = d := by
  induction d generalizing cs with
  | nil => simp [accepts_nil]
  | cons c d ih => simp [accepts_point_iff, ih]

end Glob

/-! ## Reading a pattern in parts -/

namespace GlobSet

theorem leading_append {c : CodePoint} {t : Text} (h : t.head? ≠ some c) (cs : Text) :
    leading c (cs ++ t) = ((leading c cs).1, (leading c cs).2 ++ t) := by
  cases cs with
  | nil =>
    cases t with
    | nil => rfl
    | cons d t => simp_all [leading]
  | cons d cs =>
    simp only [List.cons_append, leading]
    split <;> rfl

theorem dropWhile_of_notMem {a : Text} (h : .char ']' ∉ a) (b : Text) :
    (a ++ b).dropWhile (· ≠ .char ']') = b.dropWhile (· ≠ .char ']') := by
  apply List.dropWhile_append_of_pos
  intro c hc
  simpa using fun heq : c = .char ']' => h (heq ▸ hc)

theorem takeWhile_of_notMem {a : Text} (h : .char ']' ∉ a) (b : Text) :
    (a ++ b).takeWhile (· ≠ .char ']') = a ++ b.takeWhile (· ≠ .char ']') := by
  apply List.takeWhile_append_of_pos
  intro c hc
  simpa using fun heq : c = .char ']' => h (heq ▸ hc)

/-- A set that is open at a slash is closed in front of it or nowhere, if no closing bracket
follows. -/
theorem split?_append_slash {t : Text} (h : .char ']' ∉ t) (cs : Text) :
    split? (cs ++ .char '/' :: t) =
      (split? cs).map fun (body, rest) => (body, rest ++ .char '/' :: t) := by
  have hslash (c : CodePoint) (hc : c ≠ .char '/') :
      (CodePoint.char '/' :: t).head? ≠ some c := by simpa using Ne.symm hc
  simp only [split?, leading_append (hslash (.char '!') (by simp)),
    leading_append (hslash (.char ']') (by simp))]
  generalize (leading (.char ']') (leading (.char '!') cs).2).2 = inner
  by_cases hinner : .char ']' ∈ inner
  · obtain ⟨a, b, rfl, ha⟩ := List.eq_append_cons_of_mem hinner
    rw [List.append_assoc, dropWhile_of_notMem ha, dropWhile_of_notMem ha, takeWhile_of_notMem ha,
      takeWhile_of_notMem ha]
    simp
  · have hopen : .char ']' ∉ inner ++ CodePoint.char '/' :: t := by simp [hinner, h]
    have hnone := dropWhile_of_notMem hinner []
    have hnone' := dropWhile_of_notMem hopen []
    rw [List.append_nil] at hnone hnone'
    rw [hnone, hnone']
    rfl

end GlobSet

namespace Glob

theorem consStar_append_point (g : Glob) (c : CodePoint) (h : Glob) :
    consStar (g ++ .point c :: h) = consStar g ++ .point c :: h := by
  fun_cases consStar g with
  | case1 g => rfl
  | case2 g hg =>
    cases g with
    | nil => rfl
    | cons piece g =>
      rw [List.cons_append, consStar]
      · rfl
      · intro g' heq
        cases heq
        exact hg g rfl

/-- What follows a slash is read apart from what is in front of it, if it has no closing bracket.
-/
theorem ofText_append_slash {t : Text} (h : .char ']' ∉ t) (w : Text) :
    ofText (w ++ .char '/' :: t) = ofText w ++ .point (.char '/') :: ofText t := by
  fun_induction ofText w with
  | case1 => simp [ofText]
  | case2 cs ih => rw [List.cons_append, ofText, ih, consStar_append_point]
  | case3 cs ih => rw [List.cons_append, ofText, ih, List.cons_append]
  | case4 cs body rest hsplit ih =>
    have hmore := GlobSet.split?_append_slash h cs
    rw [hsplit, Option.map_some] at hmore
    rw [List.cons_append, ofText]
    split
    · rename_i heq
      cases hmore.symm.trans heq
      rw [ih, List.cons_append]
    · rename_i heq
      cases hmore.symm.trans heq
  | case5 cs hsplit ih =>
    have hmore := GlobSet.split?_append_slash h cs
    rw [hsplit, Option.map_none] at hmore
    rw [List.cons_append, ofText]
    split
    · rename_i heq
      cases hmore.symm.trans heq
    · rw [ih, List.cons_append]
  | case6 c cs hstar hany hset ih =>
    rw [List.cons_append, ofText, ih, List.cons_append]
    all_goals assumption

/-- Texts in which nothing stands for anything but itself. -/
def IsLiteral (d : Text) : Prop := .char '*' ∉ d ∧ .char '?' ∉ d ∧ .char '[' ∉ d

theorem ofText_literal {d : Text} (h : IsLiteral d) : ofText d = d.map .point := by
  induction d with
  | nil => simp [ofText]
  | cons c d ih =>
    obtain ⟨hstar, hany, hset⟩ := h
    simp only [List.mem_cons, not_or] at hstar hany hset
    rw [ofText, ih ⟨hstar.2, hany.2, hset.2⟩, List.map_cons]
    · exact fun heq => hstar.1 heq.symm
    · exact fun heq => hany.1 heq.symm
    · exact fun heq => hset.1 heq.symm

/-! ## Texts that fit -/

theorem fits_append_slash {t : Text} (h : .char ']' ∉ t) (w cs : Text) :
    fits (w ++ .char '/' :: t) cs = true ↔
      ∃ as bs, cs = as ++ .char '/' :: bs ∧ fits w as = true ∧ fits t bs = true := by
  simp only [fits, ofText_append_slash h, accepts_append, accepts_point_iff]
  constructor
  · rintro ⟨as, _, rfl, has, bs, rfl, hbs⟩
    exact ⟨as, bs, rfl, has, hbs⟩
  · rintro ⟨as, bs, rfl, has, hbs⟩
    exact ⟨as, .char '/' :: bs, rfl, has, bs, rfl, hbs⟩

theorem ofText_stars : ofText "**" = [.star] := by
  simp [Text.ofString, ofText, consStar]

theorem fits_stars (cs : Text) : fits "**" cs = true := by
  rw [fits, ofText_stars, accepts_star_iff]
  exact ⟨cs, [], by simp, rfl⟩

/-- What lies below a path that fits a pattern. -/
theorem fits_tail (w cs : Text) : fits (w ++ "/**") cs = true ↔
    ∃ as bs, cs = as ++ .char '/' :: bs ∧ fits w as = true := by
  have htail : w ++ "/**" = w ++ CodePoint.char '/' :: ("**" : Text) := rfl
  rw [htail, fits_append_slash (by decide)]
  simp [fits_stars]

theorem ofText_lead (w : Text) : ofText ("**/" ++ w) = .star :: .point (.char '/') :: ofText w := by
  have hlead : ("**/" : Text) ++ w = .char '*' :: .char '*' :: .char '/' :: w := rfl
  rw [hlead, ofText, ofText, ofText]
  · rfl
  all_goals simp

/-- What is seen from anywhere below as a pattern wants it. -/
theorem fits_lead (w cs : Text) : fits ("**/" ++ w) cs = true ↔
    ∃ as bs, cs = as ++ .char '/' :: bs ∧ fits w bs = true := by
  simp only [fits, ofText_lead, accepts_star_iff, accepts_point_iff]
  constructor
  · rintro ⟨as, _, rfl, bs, rfl, hbs⟩
    exact ⟨as, bs, rfl, hbs⟩
  · rintro ⟨as, bs, rfl, hbs⟩
    exact ⟨as, .char '/' :: bs, rfl, bs, rfl, hbs⟩

theorem fits_iff_eq {d : Text} (h : IsLiteral d) (cs : Text) : fits d cs = true ↔ cs = d := by
  rw [fits, ofText_literal h, accepts_points]

end Glob
end TagsFile
