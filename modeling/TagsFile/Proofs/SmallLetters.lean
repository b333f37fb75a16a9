import Mathlib
import TagsFile.Text.Lowercase

/-!
# Lower-casing is done at once

No small letter is a capital, so a text that has been lower-cased stays as it is when it is
lower-cased again. The data is checked run by run: what a run of capitals is moved to lies outside
of every run.

## Main definitions

* `CaseRun.Holds`: the characters of a run.
* `CaseRun.isClear`: numbers that lie outside of some runs.
* `Text.IsSmall`: characters that lower-casing keeps, wherever they stand.

## Main statements

* `Text.lower_lower`: a lower-cased text stays as it is.
-/

namespace TagsFile.Text

/-! ## Runs of capitals -/

namespace CaseRun

/-- Whether a run holds the character with the number `n`. -/
def Holds (r : CaseRun) (n : Nat) : Prop := r.first ≤ n ∧ n ≤ r.last ∧ (n - r.first) % r.step = 0

/-- Every `step`-th number from `low` to `high`. -/
def Counts (low high step m : Nat) : Prop := low ≤ m ∧ m ≤ high ∧ (m - low) % step = 0

/-- The number of the small letter of a run's character `n`. -/
def moved (r : CaseRun) (n : Nat) : Nat := (n + r.offset).toNat

/-- Whether ascending runs hold none of the numbers from `low` to `high` by steps of `step`. The
search ends at the first run that lies beyond them. -/
def isClear (low high step : Nat) : List CaseRun → Bool
  | [] => true
  | q :: qs =>
    if q.last < low then isClear low high step qs
    else if high < q.first then true
    else (low = high || step % q.step = 0) && low % q.step ≠ q.first % q.step &&
      isClear low high step qs

/-- Whether the small letters of a run are characters, and none of them is the capital I with a dot.
-/
def givesLetters (r : CaseRun) : Bool :=
  0 ≤ r.first + r.offset && (r.last + r.offset < 0xD800 ||
    0xE000 ≤ r.first + r.offset && r.last + r.offset < 0x110000) &&
  (r.last + r.offset < 0x130 || 0x130 < r.first + r.offset)

variable {r q : CaseRun} {low high step n m : Nat}

theorem not_holds_of_isClear {runs : List CaseRun} (hsorted : runs.Pairwise (·.first < ·.first))
    (h : isClear low high step runs = true) (hm : Counts low high step m) :
    ∀ q ∈ runs, ¬q.Holds m := by
  obtain ⟨hlow, hhigh, hstep⟩ := hm
  induction runs with
  | nil => simp
  | cons q qs ih =>
    obtain ⟨hbehind, hsorted⟩ := List.pairwise_cons.1 hsorted
    rw [isClear] at h
    refine List.forall_mem_cons.2 ?_
    by_cases hbefore : q.last < low
    · rw [if_pos hbefore] at h
      exact ⟨fun hq => by have := hq.2.1; omega, ih hsorted h⟩
    · rw [if_neg hbefore] at h
      by_cases hbeyond : high < q.first
      · refine ⟨fun hq => by have := hq.1; omega, fun q' hq' hholds => ?_⟩
        have := hbehind q' hq'
        have := hholds.1
        omega
      · rw [if_neg hbeyond] at h
        simp only [Bool.and_eq_true, Bool.or_eq_true, decide_eq_true_eq] at h
        obtain ⟨⟨hdivides, hapart⟩, hqs⟩ := h
        refine ⟨fun hq => hapart ?_, ih hsorted hqs⟩
        have hq' : m % q.step = q.first % q.step :=
          ((Nat.modEq_iff_dvd' hq.1).2 (Nat.dvd_of_mod_eq_zero hq.2.2)).symm
        have hm : m % q.step = low % q.step := by
          obtain heq | hdvd := hdivides
          · rw [show m = low by omega]
          · exact ((Nat.modEq_iff_dvd' hlow).2
              ((Nat.dvd_of_mod_eq_zero hdvd).trans (Nat.dvd_of_mod_eq_zero hstep))).symm
        rw [← hm, hq']

theorem counts_moved (hn : r.Holds n) (h0 : 0 ≤ r.first + r.offset) :
    Counts (r.moved r.first) (r.moved r.last) r.step (r.moved n) := by
  obtain ⟨hfirst, hlast, hstep⟩ := hn
  refine ⟨by unfold moved; omega, by unfold moved; omega, ?_⟩
  rwa [show r.moved n - r.moved r.first = n - r.first by unfold moved; omega]

end CaseRun

theorem capitalRuns_sorted : capitalRuns.Pairwise (·.first < ·.first) :=
  have htrans : IsTrans CaseRun (·.first < ·.first) := ⟨fun _ _ _ => Nat.lt_trans⟩
  List.isChain_iff_pairwise.1 (by decide +kernel)

theorem capitalRuns_clear : (capitalRuns.all fun r =>
    CaseRun.isClear (r.moved r.first) (r.moved r.last) r.step capitalRuns) = true := by
  decide +kernel

theorem capitalRuns_giveLetters : capitalRuns.all CaseRun.givesLetters = true := by
  decide +kernel

/-! ## Small letters -/

/-- A character that lower-casing keeps, wherever it stands. -/
structure IsSmall (c : Char) : Prop where
  ne_sigma : c ≠ 'Σ'
  ne_dotted : c ≠ 'İ'
  keeps : smallLetter c = c

instance (c : Char) : Decidable (IsSmall c) :=
  decidable_of_iff (c ≠ 'Σ' ∧ c ≠ 'İ' ∧ smallLetter c = c)
    ⟨fun ⟨h₁, h₂, h₃⟩ => ⟨h₁, h₂, h₃⟩, fun ⟨h₁, h₂, h₃⟩ => ⟨h₁, h₂, h₃⟩⟩

theorem smallLetter_cases (c : Char) :
    smallLetter c = c ∨ ∃ r ∈ capitalRuns, r.Holds c.toNat ∧
      smallLetter c = Char.ofNat (r.moved c.toNat) := by
  unfold smallLetter
  dsimp only
  split
  next r hfind =>
    have hr := List.find?_some hfind
    simp only [Bool.and_eq_true, decide_eq_true_eq, beq_iff_eq] at hr
    exact .inr ⟨r, List.mem_of_find?_eq_some hfind, ⟨hr.1.1, hr.1.2, hr.2⟩, rfl⟩
  next => exact .inl rfl

theorem smallLetter_of_not_holds {c : Char} (h : ∀ q ∈ capitalRuns, ¬q.Holds c.toNat) :
    smallLetter c = c := by
  obtain hc | ⟨r, hr, hholds, -⟩ := smallLetter_cases c
  · exact hc
  · exact absurd hholds (h r hr)

theorem isSmall_smallLetter {c : Char} (hsigma : c ≠ 'Σ') (hdotted : c ≠ 'İ') :
    IsSmall (smallLetter c) := by
  obtain hc | ⟨r, hr, hholds, hc⟩ := smallLetter_cases c
  · rw [hc]
    exact ⟨hsigma, hdotted, hc⟩
  · have hletters := List.all_eq_true.1 capitalRuns_giveLetters r hr
    simp only [CaseRun.givesLetters, Bool.and_eq_true, Bool.or_eq_true, decide_eq_true_eq]
      at hletters
    obtain ⟨⟨h0, hvalid⟩, hmissed⟩ := hletters
    have hfirst := hholds.1
    have hlast := hholds.2.1
    have hnumber : (Char.ofNat (r.moved c.toNat)).toNat = r.moved c.toNat := by
      rw [Char.toNat_ofNat, if_pos]
      unfold Nat.isValidChar CaseRun.moved
      omega
    have hkeeps : smallLetter (Char.ofNat (r.moved c.toNat)) = Char.ofNat (r.moved c.toNat) := by
      apply smallLetter_of_not_holds
      rw [hnumber]
      exact CaseRun.not_holds_of_isClear capitalRuns_sorted
        (List.all_eq_true.1 capitalRuns_clear r hr) (CaseRun.counts_moved hholds h0)
    rw [hc]
    refine ⟨?_, ?_, hkeeps⟩
    · intro hsigma
      rw [hsigma] at hkeeps
      exact absurd hkeeps (by decide)
    · intro hdotted
      have : r.moved c.toNat = 0x130 := by rw [← hnumber, hdotted]; rfl
      unfold CaseRun.moved at this
      omega

theorem isSmall_lowerFrom (before cs : List Char) : ∀ c ∈ lowerFrom before cs, IsSmall c := by
  induction cs generalizing before with
  | nil => simp [lowerFrom]
  | cons c cs ih =>
    rw [lowerFrom]
    refine List.forall_mem_append.2 ⟨?_, ih (c :: before)⟩
    split
    · refine List.forall_mem_singleton.2 ?_
      split <;> decide +kernel
    next hsigma =>
      split
      · exact List.forall_mem_cons.2
          ⟨by decide +kernel, List.forall_mem_singleton.2 (by decide +kernel)⟩
      next hdotted => exact List.forall_mem_singleton.2 (isSmall_smallLetter hsigma hdotted)

theorem lowerFrom_of_isSmall {cs : List Char} (h : ∀ c ∈ cs, IsSmall c) (before : List Char) :
    lowerFrom before cs = cs := by
  induction cs generalizing before with
  | nil => rfl
  | cons c cs ih =>
    obtain ⟨⟨hsigma, hdotted, hkeeps⟩, hcs⟩ := List.forall_mem_cons.1 h
    rw [lowerFrom, if_neg hsigma, if_neg hdotted, hkeeps, ih hcs]
    rfl

/-! ## Lower-cased texts -/

/-- Whether all characters of a text are small. -/
def IsLower (t : Text) : Prop := ∀ c, CodePoint.char c ∈ t → IsSmall c

theorem isLower_lowerRun (run : List Char) (t : Text) : IsLower (lowerRun run t) := by
  have hrun (run : List Char) : IsLower ((lowerFrom [] run.reverse).map .char) := by
    intro c hc
    obtain ⟨d, hd, heq⟩ := List.mem_map.1 hc
    obtain rfl := CodePoint.char.inj heq
    exact isSmall_lowerFrom [] _ d hd
  fun_induction lowerRun run t with
  | case1 run => exact hrun run
  | case2 run c rest ih => exact ih
  | case3 run n rest ih =>
    intro c hc
    obtain hc | hc := List.mem_append.1 hc
    · exact hrun run c hc
    · obtain hc | hc := List.mem_cons.1 hc
      · cases hc
      · exact ih c hc

theorem isLower_lower (t : Text) : IsLower (lower t) := isLower_lowerRun [] t

theorem lowerRun_of_isLower {run : List Char} {t : Text} (hrun : ∀ c ∈ run, IsSmall c)
    (ht : IsLower t) : lowerRun run t = run.reverse.map .char ++ t := by
  have hreverse (run : List Char) (hrun : ∀ c ∈ run, IsSmall c) :
      lowerFrom [] run.reverse = run.reverse :=
    lowerFrom_of_isSmall (fun c hc => hrun c (List.mem_reverse.1 hc)) []
  fun_induction lowerRun run t with
  | case1 run => rw [hreverse run hrun, List.append_nil]
  | case2 run c rest ih =>
    rw [ih (List.forall_mem_cons.2 ⟨ht c List.mem_cons_self, hrun⟩)
      fun d hd => ht d (List.mem_cons_of_mem _ hd)]
    simp
  | case3 run n rest ih =>
    rw [hreverse run hrun, ih (by simp) fun d hd => ht d (List.mem_cons_of_mem _ hd)]
    simp

theorem lower_of_isLower {t : Text} (h : IsLower t) : lower t = t :=
  lowerRun_of_isLower (by simp) h

/-- A lower-cased text stays as it is. -/
theorem lower_lower (t : Text) : lower (lower t) = lower t := lower_of_isLower (isLower_lower t)

end TagsFile.Text
