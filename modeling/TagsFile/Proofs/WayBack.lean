import TagsFile.Path.Relative
import TagsFile.Proofs.ResolvedPlace

/-!
# Ways back

The path of a file as seen from a directory is made from two texts, with no look at any file: up
from the directory to what the two have in common, then down. Where the texts have the locations of
the directory and of the file, its names lead from one to the other.

## Main statements

* `FileSystem.leads_relativePath`: the way along a relative path.
-/

namespace TagsFile

/-! ## Segments -/

theorem exists_common [DecidableEq α] (as bs : List α) :
    ∃ common, as = common ++ (dropCommon as bs).1 ∧ bs = common ++ (dropCommon as bs).2 := by
  fun_induction dropCommon as bs with
  | case1 as a bs ih =>
    obtain ⟨common, has, hbs⟩ := ih
    exact ⟨a :: common, congrArg (a :: ·) has, congrArg (a :: ·) hbs⟩
  | case2 | case3 => exact ⟨[], rfl, rfl⟩

theorem dropSlashes_of_getLast? {t : Text} {c : CodePoint} (h : t.getLast? = some c)
    (hc : c ≠ .char '/') : dropSlashes t = t := by
  obtain ⟨init, rfl⟩ := List.getLast?_eq_some_iff.1 h
  simp [dropSlashes, hc]

/-- The segments of an absolute path are its components, behind the root. -/
theorem segments_text {parts : List Text} (h : (Path.mk .root parts).IsSeparate) :
    segments (Path.mk .root parts).text = ("" : Text) :: parts := by
  by_cases hne : parts = []
  · subst hne
    rfl
  · have hlast : ∃ c, (Text.join "/" parts).getLast? = some c ∧ c ≠ .char '/' := by
      refine Text.join_induction (motive := fun t => ∃ c, t.getLast? = some c ∧ c ≠ .char '/') hne
        (fun part hpart => ?_) fun a b _ hb => ?_
      · obtain ⟨hempty, hslash⟩ := h part hpart
        obtain ⟨init, c, rfl⟩ : ∃ init c, part = init ++ [c] := by
          simpa using (List.eq_nil_or_concat part).resolve_left hempty
        exact ⟨c, by simp, fun hc => hslash (by simp [hc])⟩
      · obtain ⟨c, hb, hc⟩ := hb
        exact ⟨c, by simp [List.getLast?_append, List.getLast?_cons, hb], hc⟩
    obtain ⟨c, hlast, hc⟩ := hlast
    have htext : (Path.mk .root parts).text.getLast? = some c := by
      rw [Path.text_eq h hne]
      simp [List.getLast?_append, hlast]
    rw [segments, dropSlashes_of_getLast? htext hc, Path.pieces_text h hne]
    rfl

/-- The names on the way from one absolute path to another. -/
theorem exists_relativePath {base dest : List Text} (hbase : (Path.mk .root base).IsSeparate)
    (hdest : (Path.mk .root dest).IsSeparate) :
    ∃ common ups downs, base = common ++ ups ∧ dest = common ++ downs ∧
      relativePath (Path.mk .root base).text (Path.mk .root dest).text =
        Text.join "/" (ups.map (fun _ => (".." : Text)) ++ downs) := by
  obtain ⟨common, hups, hdowns⟩ := exists_common base dest
  refine ⟨common, _, _, hups, hdowns, ?_⟩
  rw [relativePath, segments_text hbase, segments_text hdest, dropCommon, if_pos rfl]

namespace FileSystem

variable {fs : FileSystem}

/-- Above a directory there are directories. -/
theorem leads_up {loc ups : Location} (h : fs.get? (loc ++ ups) = some .directory) (budget : Nat) :
    Leads fs.get? budget (loc ++ ups) (List.replicate ups.length (".." : Text)) budget loc := by
  induction hlength : ups.length generalizing ups with
  | zero =>
    obtain rfl := List.eq_nil_of_length_eq_zero hlength
    simpa using Leads.done
  | succ n ih =>
    obtain ⟨init, last, rfl⟩ : ∃ init last, ups = init ++ [last] := by
      simpa using (List.eq_nil_or_concat ups).resolve_left (by rintro rfl; cases hlength)
    rw [← List.append_assoc] at h ⊢
    refine .up h ?_
    rw [List.dropLast_concat]
    have habove : fs.get? (loc ++ init) = some .directory :=
      get?_eq_directory_of_concat (by rw [h]; nofun)
    exact ih habove (by simpa using hlength)

/-- The path of something as seen from a directory leads from there to it, if it is in the spelling
of the file system. -/
theorem leads_relativePath {base dest : List Text} (hbase : (Path.mk .root base).IsSeparate)
    (hdest : (Path.mk .root dest).IsSeparate) {column : Text}
    (hcolumn : relativePath (Path.mk .root base).text (Path.mk .root dest).text = column)
    (hspelled : column.asFileName? = some column) {n : Node}
    (hdir : fs.get? (base.map Text.respelled) = some .directory)
    (hn : fs.get? (dest.map Text.respelled) = some n) (hlink : ∀ target, n ≠ .link target)
    (hwalkable : Walkable (dest.map Text.respelled)) (budget : Nat) :
    Leads fs.get? budget (base.map Text.respelled) (pieces column) budget
      (dest.map Text.respelled) := by
  obtain ⟨common, ups, downs, rfl, rfl, hnames⟩ := exists_relativePath hbase hdest
  rw [hcolumn, List.map_const'] at hnames
  rw [List.map_append] at hdir hn hwalkable ⊢
  rw [List.map_append]
  by_cases hne : List.replicate ups.length (".." : Text) ++ downs = []
  · obtain ⟨hups, rfl⟩ := List.append_eq_nil_iff.1 hne
    obtain rfl : ups = [] := by simpa using hups
    rw [hnames, hne]
    exact .stay hdir (.inl rfl) .done
  · have hpieces : pieces column = List.replicate ups.length (".." : Text) ++ downs := by
      rw [hnames]
      refine pieces_join hne fun name hname => ?_
      obtain hname | hname := List.mem_append.1 hname
      · rw [List.eq_of_mem_replicate hname]
        decide
      · exact (hdest name (by simp [hname])).2
    have hdowns : downs.map Text.respelled = downs := by
      have hsame := pieces_respelled hspelled
      rw [hpieces, List.map_append] at hsame
      exact (List.append_inj_right hsame (by simp)).symm
    have hup := leads_up hdir budget
    rw [List.length_map] at hup
    rw [hpieces]
    refine hup.trans ?_
    rw [hdowns] at hn hwalkable ⊢
    exact leads_of_get? (fun name hname => hwalkable name (by simp [hname])) hn hlink budget

end FileSystem
end TagsFile
