import TagsFile.Proofs.JsonText
import TagsFile.Tag.Index

/-!
# The order of the lines

The lines of a tags file stand in the order of their code points, which is a linear one. So the file
does not tell in which order its tags were found.

## Main statements

* `TagIndex.render_perm`: tags in another order give the same tags file.
-/

namespace TagsFile

theorem CodePoint.toNat_inj {a b : CodePoint} (h : a.toNat = b.toNat) : a = b := by
  rw [← ofNat_toNat a, h, ofNat_toNat]

namespace Text

theorem le_antisymm {a b : Text} (h : le a b = true) (h' : le b a = true) : a = b := by
  induction a generalizing b with
  | nil =>
    cases b with
    | nil => rfl
    | cons d ds => cases h'
  | cons c cs ih =>
    cases b with
    | nil => cases h
    | cons d ds =>
      by_cases heq : c = d
      · subst heq
        simp only [le, if_true] at h h'
        rw [ih h h']
      · simp only [le, heq, Ne.symm heq, if_false, CodePoint.le, decide_eq_true_eq] at h h'
        exact absurd (CodePoint.toNat_inj (by omega)) heq

theorem le_total (a b : Text) : (le a b || le b a) = true := by
  induction a generalizing b with
  | nil => rfl
  | cons c cs ih =>
    cases b with
    | nil => rfl
    | cons d ds =>
      by_cases heq : c = d
      · subst heq
        simpa only [le, if_true] using ih ds
      · simp only [le, heq, Ne.symm heq, if_false, CodePoint.le, Bool.or_eq_true, decide_eq_true_eq]
        omega

theorem le_trans {a b c : Text} (h : le a b = true) (h' : le b c = true) : le a c = true := by
  induction a generalizing b c with
  | nil => rfl
  | cons x xs ih =>
    cases b with
    | nil => cases h
    | cons y ys =>
      cases c with
      | nil => cases h'
      | cons z zs =>
        by_cases hxy : x = y
        · subst hxy
          by_cases hxz : x = z
          · subst hxz
            simp only [le, if_true] at h h' ⊢
            exact ih h h'
          · simp only [le, hxz, if_false] at h' ⊢
            exact h'
        · by_cases hyz : y = z
          · subst hyz
            simp only [le, hxy, if_false] at h ⊢
            exact h
          · simp only [le, hxy, hyz, if_false, CodePoint.le, decide_eq_true_eq] at h h'
            have hxz : x ≠ z := by
              rintro rfl
              exact hxy (CodePoint.toNat_inj (by omega))
            simp only [le, hxz, if_false, CodePoint.le, decide_eq_true_eq]
            omega

/-- Sorted texts do not tell in which order they were before. -/
theorem mergeSort_eq_of_perm {lines lines' : List Text} (h : lines.Perm lines') :
    lines.mergeSort le = lines'.mergeSort le := by
  have hsorted (lines : List Text) : (lines.mergeSort le).Pairwise fun a b => le a b = true :=
    @List.pairwise_mergeSort Text le (fun _ _ _ => le_trans) le_total lines
  apply List.Perm.eq_of_pairwise (fun _ _ _ _ => le_antisymm) (hsorted lines) (hsorted lines')
  exact (List.mergeSort_perm lines le).trans (h.trans (List.mergeSort_perm lines' le).symm)

end Text

theorem mapM_cons_eq_ok {α β ε : Type} {f : α → Except ε β} {item : α} {items : List α}
    {results : List β} : (item :: items).mapM f = .ok results ↔
      ∃ first rest, f item = .ok first ∧ items.mapM f = .ok rest ∧ results = first :: rest := by
  rw [List.mapM_cons]
  cases f item with
  | error e => simp [bind, Except.bind]
  | ok first =>
    cases items.mapM f with
    | error e => simp [bind, Except.bind]
    | ok rest => simp [bind, Except.bind, pure, Except.pure, eq_comm]

/-- What can be done to each item of a list can be done in another order, with the outcomes in that
order. -/
theorem mapM_perm {α β ε : Type} {f : α → Except ε β} {items items' : List α}
    (h : items.Perm items') {results : List β} (hresults : items.mapM f = .ok results) :
    ∃ results', items'.mapM f = .ok results' ∧ results.Perm results' := by
  induction h generalizing results with
  | nil => exact ⟨results, hresults, .refl _⟩
  | cons item _ ih =>
    obtain ⟨first, rest, hfirst, hrest, rfl⟩ := mapM_cons_eq_ok.1 hresults
    obtain ⟨rest', hrest', hperm⟩ := ih hrest
    exact ⟨first :: rest', mapM_cons_eq_ok.2 ⟨first, rest', hfirst, hrest', rfl⟩, hperm.cons first⟩
  | swap item item' items =>
    obtain ⟨first, others, hfirst, hothers, rfl⟩ := mapM_cons_eq_ok.1 hresults
    obtain ⟨second, rest, hsecond, hrest, rfl⟩ := mapM_cons_eq_ok.1 hothers
    refine ⟨second :: first :: rest, ?_, .swap second first rest⟩
    have htail := mapM_cons_eq_ok.2 ⟨first, rest, hfirst, hrest, rfl⟩
    exact mapM_cons_eq_ok.2 ⟨second, first :: rest, hsecond, htail, rfl⟩
  | trans _ _ ih ih' =>
    obtain ⟨results₁, hresults₁, hperm₁⟩ := ih hresults
    obtain ⟨results₂, hresults₂, hperm₂⟩ := ih' hresults₁
    exact ⟨results₂, hresults₂, hperm₁.trans hperm₂⟩

namespace TagIndex

/-- Tags in another order give the same tags file. -/
theorem render_perm {index index' : TagIndex} (h : index.tags.Perm index'.tags) {base text : Text}
    (hrender : index.render base = .ok text) : index'.render base = .ok text := by
  rw [render, lines] at hrender ⊢
  cases hlines : index.tags.mapM (Tag.lineFrom base) with
  | error e => simp [hlines, Except.map] at hrender
  | ok found =>
    obtain ⟨found', hlines', hperm⟩ := mapM_perm h hlines
    rw [hlines] at hrender
    rw [hlines', ← hrender]
    simp only [Except.map, Text.mergeSort_eq_of_perm hperm]

end TagIndex
end TagsFile
