import TagsFile.Proofs.Exclusion
import TagsFile.Proofs.WayBack

/-!
# Where relative paths lead

A relative path is made from two texts alone. For canonical paths its names lead from the base to
the destination, first up and then down. So no two destinations have the same relative path.

## Main definitions

* `IsCanonical`: the texts of canonical absolute paths.
* `goAlong`: where names lead from a place.

## Main statements

* `relativePath_inverts`: a relative path leads to its destination, and to no other.
-/

namespace TagsFile

/-! ## Canonical paths -/

/-- A canonical absolute path with the given components; there may be slashes behind it. -/
structure IsCanonical (parts : List Text) (t : Text) : Prop where
  components : ∀ part ∈ parts, part ≠ "" ∧ .char '/' ∉ part ∧ part ≠ "." ∧ part ≠ ".."
  text : ∃ n, t = (Path.mk .root parts).text ++ List.replicate n (.char '/')

theorem dropSlashes_append_slashes (t : Text) (n : Nat) :
    dropSlashes (t ++ List.replicate n (.char '/')) = dropSlashes t := by
  have hslashes : dropSlashes (List.replicate n (.char '/')) = [] := by simp [dropSlashes]
  rw [dropSlashes_append, if_pos hslashes]

namespace IsCanonical

variable {parts : List Text} {t : Text}

theorem isSeparate (h : IsCanonical parts t) : (Path.mk .root parts).IsSeparate :=
  fun part hpart => ⟨(h.components part hpart).1, (h.components part hpart).2.1⟩

theorem segments_eq (h : IsCanonical parts t) :
    segments t = segments (Path.mk .root parts).text := by
  obtain ⟨n, rfl⟩ := h.text
  rw [segments, segments, dropSlashes_append_slashes]

end IsCanonical

/-! ## Ways along names -/

/-- Where a name leads: up, down to an entry, or nowhere if it is empty. -/
def goTo (loc : Location) (name : Text) : Location :=
  if name = "" then loc else if name = ".." then loc.dropLast else loc ++ [name]

/-- Where names lead one after the other. -/
def goAlong (loc : Location) (names : List Text) : Location := names.foldl goTo loc

theorem goAlong_up (loc ups : Location) :
    goAlong (loc ++ ups) (List.replicate ups.length (".." : Text)) = loc := by
  induction hlength : ups.length generalizing ups with
  | zero =>
    obtain rfl := List.eq_nil_of_length_eq_zero hlength
    simp [goAlong]
  | succ n ih =>
    obtain ⟨init, last, rfl⟩ : ∃ init last, ups = init ++ [last] := by
      simpa using (List.eq_nil_or_concat ups).resolve_left (by rintro rfl; cases hlength)
    have hup : goTo (loc ++ (init ++ [last])) ".." = loc ++ init := by
      rw [goTo, if_neg (by decide), if_pos rfl, ← List.append_assoc, List.dropLast_concat]
    rw [goAlong, List.replicate_succ, List.foldl_cons, hup]
    exact ih init (by simpa using hlength)

theorem goAlong_down (loc : Location) {names : List Text}
    (h : ∀ name ∈ names, name ≠ "" ∧ name ≠ "..") : goAlong loc names = loc ++ names := by
  induction names generalizing loc with
  | nil => simp [goAlong]
  | cons name names ih =>
    obtain ⟨⟨hempty, hup⟩, hnames⟩ := List.forall_mem_cons.1 h
    have hdown : goTo loc name = loc ++ [name] := by rw [goTo, if_neg hempty, if_neg hup]
    calc goAlong loc (name :: names)
      _ = goAlong (loc ++ [name]) names := by rw [goAlong, List.foldl_cons, hdown, goAlong]
      _ = loc ++ [name] ++ names := ih (loc ++ [name]) hnames
      _ = loc ++ name :: names := (List.append_cons loc name names).symm

/-! ## Relative paths -/

variable {base dest : Text} {start goal : List Text}

/-- Slashes at the end of two paths make no difference to the way between them. -/
theorem relativePath_eq (hbase : IsCanonical start base) (hdest : IsCanonical goal dest) :
    relativePath base dest =
      relativePath (Path.mk .root start).text (Path.mk .root goal).text := by
  rw [relativePath, relativePath, hbase.segments_eq, hdest.segments_eq]

/-- The names of a relative path: up to what both have in common, then down. Where base and
destination are the same there is one name, which is empty. -/
theorem exists_pieces_relativePath (hbase : IsCanonical start base)
    (hdest : IsCanonical goal dest) :
    start = goal ∧ pieces (relativePath base dest) = [("" : Text)] ∨
      ∃ common ups downs, start = common ++ ups ∧ goal = common ++ downs ∧
        pieces (relativePath base dest) = List.replicate ups.length (".." : Text) ++ downs := by
  obtain ⟨common, ups, downs, rfl, rfl, hway⟩ :=
    exists_relativePath hbase.isSeparate hdest.isSeparate
  rw [relativePath_eq hbase hdest, hway, List.map_const']
  by_cases hne : List.replicate ups.length (".." : Text) ++ downs = []
  · left
    obtain ⟨hups, rfl⟩ := List.append_eq_nil_iff.1 hne
    obtain rfl : ups = [] := by simpa using hups
    exact ⟨rfl, rfl⟩
  · refine .inr ⟨common, ups, downs, rfl, rfl, pieces_join hne fun name hname => ?_⟩
    obtain hname | hname := List.mem_append.1 hname
    · rw [List.eq_of_mem_replicate hname]
      decide
    · exact (hdest.isSeparate name (by simp [hname])).2

theorem goAlong_relativePath (hbase : IsCanonical start base) (hdest : IsCanonical goal dest) :
    goAlong start (pieces (relativePath base dest)) = goal := by
  obtain ⟨rfl, hpieces⟩ | ⟨common, ups, downs, rfl, rfl, hpieces⟩ :=
    exists_pieces_relativePath hbase hdest
  · rw [hpieces]
    rfl
  · have hdowns : ∀ name ∈ downs, name ≠ "" ∧ name ≠ ".." := by
      intro name hname
      obtain ⟨hempty, -, -, hup⟩ := hdest.components name (by simp [hname])
      exact ⟨hempty, hup⟩
    rw [hpieces, goAlong, List.foldl_append, ← goAlong, ← goAlong, goAlong_up]
    exact goAlong_down common hdowns

/-- A relative path leads from its base to its destination, first up and then down. So the paths of
two destinations are the same only if the destinations are. -/
theorem relativePath_inverts (hbase : IsCanonical start base) (hdest : IsCanonical goal dest) :
    goAlong start (pieces (relativePath base dest)) = goal ∧
    (pieces (relativePath base dest)).Pairwise (fun name next : Text => next = ".." → name = "..") ∧
    ∀ {dest' : Text} {goal' : List Text}, IsCanonical goal' dest' →
      (relativePath base dest' = relativePath base dest ↔ goal' = goal) := by
  refine ⟨goAlong_relativePath hbase hdest, ?_, fun {dest' goal'} hdest' => ⟨fun heq => ?_, ?_⟩⟩
  · obtain ⟨-, hpieces⟩ | ⟨common, ups, downs, -, rfl, hpieces⟩ :=
      exists_pieces_relativePath hbase hdest
    · simp [hpieces]
    · rw [hpieces, List.pairwise_append]
      refine ⟨?_, ?_, fun name hname _ _ _ => List.eq_of_mem_replicate hname⟩
      · exact List.pairwise_replicate.2 (.inr id)
      · refine List.pairwise_of_forall_mem_list fun name _ next hnext hup => absurd hup ?_
        exact (hdest.components next (by simp [hnext])).2.2.2
  · rw [← goAlong_relativePath hbase hdest', heq, goAlong_relativePath hbase hdest]
  · rintro rfl
    rw [relativePath_eq hbase hdest, relativePath_eq hbase hdest']

theorem relativePath_inverts_fromSibling :
    IsCanonical ["srv", "www"] "/srv/www//" ∧ IsCanonical ["srv", "log", "a"] "/srv/log/a/" ∧
    relativePath "/srv/www//" "/srv/log/a/" = "../log/a" ∧
    goAlong ["srv", "www"] (pieces "../log/a") = ["srv", "log", "a"] := by
  have hbase : IsCanonical ["srv", "www"] "/srv/www//" := ⟨by decide, 2, by decide⟩
  have hdest : IsCanonical ["srv", "log", "a"] "/srv/log/a/" := ⟨by decide, 1, by decide⟩
  have hway : relativePath "/srv/www//" "/srv/log/a/" = "../log/a" := by decide
  exact ⟨hbase, hdest, hway, hway ▸ (relativePath_inverts hbase hdest).1⟩

end TagsFile
