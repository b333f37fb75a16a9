import TagsFile.Proofs.Entries

/-!
# What saving leaves below a root

Below the root of a store into which sources have been saved there are the directories of the
sources and the entries, and nothing else.

## Main definitions

* `Store.Saves`: the files that come of saving one source after the other.
* `Store.Mirrors`: what lies below the root of a store then.
-/

namespace TagsFile.Store

open FileSystem

variable {s : Store} {fs fs' start : FileSystem} {here : Here} {base root : Path}
  {dest top loc : Location} {names : List Text} {now : Int} {saved : List Location}

/-- The files that come of saving one source after the other, each with success. The sources are
given by their canonical paths, the last one first. -/
inductive Saves (s : Store) (here : Here) (start : FileSystem) :
    List Location → FileSystem → Prop where
  | nothing : Saves s here start [] start
  | next {saved : List Location} {fs fs' : FileSystem} {loc : Location} {now : Int}
      {tags : List RawTag} (h : Saves s here start saved fs) (hloc : loc.IsNamed)
      (hsave : s.save now here loc.text tags fs = (.ok (), fs')) :
      Saves s here start (loc :: saved) fs'

/-- What lies below the root of a store in which some sources have been saved: the directories of
the sources, and files in the places of their entries. -/
structure Mirrors (here : Here) (base : Path) (dest : Location) (names : List Text)
    (saved : List Location) (fs : FileSystem) : Prop where
  site : fs.Site here base dest names
  fits : ∀ rest, fs.get? (dest ++ (names ++ rest)) ≠ none → Fits base (names ++ rest)
  root : saved ≠ [] → fs.get? (dest ++ names) = some .directory
  directory : ∀ rest, rest ≠ [] → (fs.get? (dest ++ (names ++ rest)) = some .directory ↔
    ∃ p ∈ saved, rest <+: p.dropLast)
  file : ∀ rest, (∃ content time, fs.get? (dest ++ (names ++ rest)) = some (.file content time)) ↔
    ∃ p ∈ saved, rest = entryNames p

theorem Mirrors.save (h : Mirrors here base dest names saved fs) (hroot : s.root = base.below names)
    (henabled : s.enabled = true) (hloc : loc.IsNamed) {tags : List RawTag}
    (hsave : s.save now here loc.text tags fs = (.ok (), fs')) :
    Mirrors here base dest names (loc :: saved) fs' := by
  have hsteady := save_steady h.site hroot henabled hloc hsave
  obtain ⟨made, hgrows, ⟨e, -, herror, -⟩ | ⟨-, hfits, hdir, hentry, time, -, hget⟩⟩ :=
    save_cases now h.site hroot henabled hloc tags
  · simp [hsave] at herror
  rw [hsave] at hget
  have hkept {place : Location} (hplace : made.get? place = some .directory) :
      fs'.get? place = some .directory := by
    rw [hget, if_neg, hplace]
    rintro rfl
    exact hentry hplace
  refine ⟨h.site.steady hsteady, ?_, ?_, ?_, ?_⟩
  · intro rest hnode
    rw [hget] at hnode
    split at hnode
    · rename_i heq
      rw [List.append_cancel_left heq]
      exact hfits
    · obtain hsame | ⟨-, -, front, -, -, hfront, heq⟩ := hgrows (dest ++ (names ++ rest))
      · exact h.fits rest (hsame ▸ hnode)
      · rw [List.append_cancel_left heq]
        exact hfront
  · intro _
    refine hkept (get?_eq_directory_of_front ?_ hdir)
    rw [← List.append_assoc]
    exact List.prefix_append ..
  · intro rest hne
    constructor
    · intro hnode
      rw [hget] at hnode
      split at hnode
      · cases hnode
      · obtain hsame | ⟨-, -, front, hfront, -, -, heq⟩ := hgrows (dest ++ (names ++ rest))
        · obtain ⟨p, hp, hrest⟩ := (h.directory rest hne).1 (hsame ▸ hnode)
          exact ⟨p, List.mem_cons_of_mem _ hp, hrest⟩
        · rw [← List.append_cancel_left heq, List.prefix_append_right_inj] at hfront
          exact ⟨loc, List.mem_cons_self, hfront⟩
    · rintro ⟨p, hp, hrest⟩
      apply hkept
      obtain rfl | hp := List.mem_cons.1 hp
      · refine get?_eq_directory_of_front ?_ hdir
        rwa [List.prefix_append_right_inj, List.prefix_append_right_inj]
      · exact (hgrows.keeps _).1 ((h.directory rest hne).2 ⟨p, hp, hrest⟩)
  · intro rest
    by_cases heq : rest = entryNames loc
    · subst heq
      exact ⟨fun _ => ⟨loc, List.mem_cons_self, rfl⟩, fun _ => ⟨_, _, by rw [hget, if_pos rfl]⟩⟩
    · have hplace : dest ++ (names ++ rest) ≠ dest ++ (names ++ entryNames loc) := fun hplace =>
        heq (List.append_cancel_left (List.append_cancel_left hplace))
      simp only [get?_save_file h.site hroot henabled hloc hplace hsave, h.file, List.mem_cons,
        exists_eq_or_imp, heq, false_or]

theorem Mirrors.saves (h : Mirrors here base dest names [] start)
    (hroot : s.root = base.below names) (henabled : s.enabled = true)
    (hsaves : Saves s here start saved fs) :
    Mirrors here base dest names saved fs := by
  induction hsaves with
  | nothing => exact h
  | next _ hloc hsave ih => exact ih.save hroot henabled hloc hsave

theorem Mirrors.root_ne_file (h : Mirrors here base dest names saved fs) (content : List UInt8)
    (time : Int) : fs.get? (dest ++ names) ≠ some (.file content time) := by
  intro hfile
  obtain ⟨p, -, hempty⟩ := (h.file []).1 ⟨content, time, by rwa [List.append_nil]⟩
  exact entryNames_ne_nil p hempty.symm

/-- Where nothing lies below the root, nothing has been saved. -/
theorem Mirrors.of_site (hsite : fs.Site here base dest names)
    (hfile : ∀ content time, fs.get? (dest ++ names) ≠ some (.file content time))
    (hfits : fs.get? (dest ++ names) ≠ none → Fits base names)
    (hnone : ∀ rest, rest ≠ [] → fs.get? (dest ++ names ++ rest) = none) :
    Mirrors here base dest names [] fs := by
  have hvacant (rest : List Text) (hne : rest ≠ []) : fs.get? (dest ++ (names ++ rest)) = none := by
    rw [← List.append_assoc]
    exact hnone rest hne
  refine ⟨hsite, ?_, by simp, ?_, ?_⟩
  · intro rest hnode
    by_cases hne : rest = []
    · subst hne
      rw [List.append_nil] at hnode ⊢
      exact hfits hnode
    · exact absurd (hvacant rest hne) hnode
  · intro rest hne
    simp [hvacant rest hne]
  · intro rest
    by_cases hne : rest = []
    · subst hne
      simp [hfile]
    · simp [hvacant rest hne]

theorem exists_mirrors (h : FreshRoot start here root top) :
    ∃ base dest names, root = base.below names ∧ top = dest ++ names ∧
      Mirrors here base dest names [] start := by
  obtain ⟨base, dest, names, hsite, hbelow, rfl, hfile, hfits, hnone⟩ := h.exists_site
  exact ⟨base, dest, names, hbelow, rfl, .of_site hsite hfile hfits hnone⟩

end TagsFile.Store
