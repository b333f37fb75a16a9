import TagsFile.Proofs.Found
import TagsFile.Proofs.Listing
import TagsFile.Proofs.SortedLines

/-!
# Walks through listings

A walk goes through the entries of a directory from the top down, into the directories that pass a
test. It comes to the files of each directory and then to what is below its subdirectories, in the
order in which the directory lists them. If it is to go into a directory that lies too deep, it ends
there.

## Main definitions

* `Listing.Holds`: what is in some entries, by the names that lead to it.
* `Listing.Finds`, `Listing.Meets`: the files and the directories that a walk comes to.
* `Listing.walkFrom`: a walk, with a limit to its depth.
* `Listing.FindsWithin`: the files that such a walk comes to.
* `ComesBefore`, `Precedes`: the order of the files where every directory is in the order of its
  names.

## Main statements

* `Listing.fault_walkFrom`: when a walk comes to its end.
* `Listing.Ascending.mem_walkFrom`, `Listing.Ascending.pairwise_walkFrom`: the files that it comes
  to until then, and their order.
* `Listing.stopsBefore_filter_walkFrom`: a walk may leave out directories of which nothing is
  wanted, and goes on where the walk through all directories ends.
-/

namespace TagsFile

namespace Listing

/-! ## What is in a listing -/

/-- What holds of some entries as soon as it holds of what the directories among them hold is always
true. -/
theorem entries_induction {motive : List (Text × Listing) → Prop}
    (step : ∀ entries : List (Text × Listing),
      (∀ name inner, (name, .directory inner) ∈ entries → motive inner) → motive entries)
    (entries : List (Text × Listing)) : motive entries :=
  step entries fun _ inner _ => entries_induction step inner
termination_by sizeOf entries
decreasing_by
  have hlt := List.sizeOf_lt_of_mem ‹_›
  simp only [Prod.mk.sizeOf_spec, directory.sizeOf_spec] at hlt
  omega

/-- What some names lead to, through real directories. -/
inductive Holds : List (Text × Listing) → List Text → Listing → Prop where
  | entry {entries : List (Text × Listing)} {name : Text} {l : Listing}
      (h : (name, l) ∈ entries) : Holds entries [name] l
  | inside {entries inner : List (Text × Listing)} {name : Text} {rest : List Text} {l : Listing}
      (h : (name, .directory inner) ∈ entries) (hrest : Holds inner rest l) :
      Holds entries (name :: rest) l

variable {entries : List (Text × Listing)} {names above : List Text} {l : Listing}
  {enters : List Text → Bool}

theorem Holds.ne_nil (h : Holds entries names l) : names ≠ [] := by cases h <;> simp

theorem holds_cons_iff {name : Text} : Holds entries (name :: names) l ↔
    (names = [] ∧ (name, l) ∈ entries) ∨
      ∃ inner, (name, .directory inner) ∈ entries ∧ Holds inner names l := by
  constructor
  · intro h
    cases h with
    | entry h => exact .inl ⟨rfl, h⟩
    | inside h hrest => exact .inr ⟨_, h, hrest⟩
  · rintro (⟨rfl, h⟩ | ⟨inner, h, hrest⟩)
    · exact .entry h
    · exact .inside h hrest

theorem isFile_sort (l : Listing) : l.sort.isFile = l.isFile := by
  cases l <;> simp [sort, isFile]

theorem sort_eq_directory {inner : List (Text × Listing)} (h : l.sort = .directory inner) :
    ∃ inner', l = .directory inner' ∧ sorted inner' = inner := by
  cases l <;> simp_all [sort, sorted]

/-- Sorting moves nothing to another directory. -/
theorem holds_sorted_iff :
    Holds (sorted entries) names l ↔ ∃ l', Holds entries names l' ∧ l'.sort = l := by
  induction names generalizing entries with
  | nil => exact ⟨fun h => absurd rfl h.ne_nil, fun ⟨_, h, _⟩ => absurd rfl h.ne_nil⟩
  | cons name names ih =>
    simp only [holds_cons_iff, mem_sorted]
    constructor
    · rintro (⟨rfl, l', hl', rfl⟩ | ⟨inner, ⟨l', hl', hsort⟩, hrest⟩)
      · exact ⟨l', .inl ⟨rfl, hl'⟩, rfl⟩
      · obtain ⟨inner', rfl, rfl⟩ := sort_eq_directory hsort
        obtain ⟨below, hbelow, rfl⟩ := ih.1 hrest
        exact ⟨below, .inr ⟨inner', hl', hbelow⟩, rfl⟩
    · rintro ⟨l', ⟨rfl, hl'⟩ | ⟨inner, hinner, hrest⟩, rfl⟩
      · exact .inl ⟨rfl, l', hl', rfl⟩
      · exact .inr ⟨sorted inner, ⟨_, hinner, by rw [sort, sorted]⟩, ih.2 ⟨l', hrest, rfl⟩⟩

/-! ## Walks -/

/-- Whether a walk goes into all directories on the way along some names from `above`. -/
def Passes (enters : List Text → Bool) (above names : List Text) : Prop :=
  ∀ front, front <+: names → front ≠ [] → front ≠ names → enters (above ++ front) = true

theorem passes_singleton (enters : List Text → Bool) (above : List Text) (name : Text) :
    Passes enters above [name] := by
  intro front hfront hempty hwhole
  have hlength := hfront.length_le
  have hone : front.length = 1 := by
    have := List.length_pos_of_ne_nil hempty
    simp only [List.length_singleton] at hlength
    omega
  exact absurd (hfront.eq_of_length hone) hwhole

theorem passes_cons_iff {name : Text} (hne : names ≠ []) : Passes enters above (name :: names) ↔
    enters (above ++ [name]) = true ∧ Passes enters (above ++ [name]) names := by
  constructor
  · intro h
    refine ⟨h [name] (by simp) (by simp) (by simpa using Ne.symm hne), ?_⟩
    intro front hfront _ hwhole
    have hmore := h (name :: front) (by simpa using hfront) (by simp) (by simpa using hwhole)
    simpa using hmore
  · rintro ⟨hname, hrest⟩ front hfront hempty hwhole
    obtain rfl | ⟨front, rfl, hprefix⟩ := List.prefix_cons_iff.1 hfront
    · exact absurd rfl hempty
    · by_cases hfirst : front = []
      · simpa [hfirst] using hname
      · simpa using hrest front hprefix hfirst (by simpa using hwhole)

/-- Whether a walk from `above` comes to a file, by some names. -/
def Finds (enters : List Text → Bool) (above : List Text) (entries : List (Text × Listing))
    (names : List Text) : Prop :=
  ∃ l, Holds entries names l ∧ l.isFile = true ∧ Passes enters above names

/-- Whether a walk from `above` comes to a directory that it is to go into, by some names. The
directory may be shut, or behind a link. -/
def Meets (enters : List Text → Bool) (above : List Text) (entries : List (Text × Listing))
    (names : List Text) : Prop :=
  ∃ l, Holds entries names l ∧ l.isFile = false ∧ Passes enters above names ∧
    enters (above ++ names) = true

theorem Finds.ne_nil (h : Finds enters above entries names) : names ≠ [] := by
  obtain ⟨l, hholds, -⟩ := h
  exact hholds.ne_nil

theorem Meets.ne_nil (h : Meets enters above entries names) : names ≠ [] := by
  obtain ⟨l, hholds, -⟩ := h
  exact hholds.ne_nil

theorem finds_cons_iff {name : Text} : Finds enters above entries (name :: names) ↔
    (names = [] ∧ ∃ l, (name, l) ∈ entries ∧ l.isFile = true) ∨
      ∃ inner, (name, .directory inner) ∈ entries ∧ enters (above ++ [name]) = true ∧
        Finds enters (above ++ [name]) inner names := by
  constructor
  · rintro ⟨l, hholds, hfile, hpasses⟩
    cases hholds with
    | entry hl => exact .inl ⟨rfl, l, hl, hfile⟩
    | inside hinner hrest =>
      obtain ⟨hname, hpasses⟩ := (passes_cons_iff hrest.ne_nil).1 hpasses
      exact .inr ⟨_, hinner, hname, l, hrest, hfile, hpasses⟩
  · rintro (⟨rfl, l, hl, hfile⟩ | ⟨inner, hinner, hname, l, hrest, hfile, hpasses⟩)
    · exact ⟨l, .entry hl, hfile, passes_singleton enters above name⟩
    · exact ⟨l, .inside hinner hrest, hfile, (passes_cons_iff hrest.ne_nil).2 ⟨hname, hpasses⟩⟩

theorem meets_cons_iff {name : Text} : Meets enters above entries (name :: names) ↔
    enters (above ++ [name]) = true ∧
      ((names = [] ∧ ∃ l, (name, l) ∈ entries ∧ l.isFile = false) ∨
        ∃ inner, (name, .directory inner) ∈ entries ∧
          Meets enters (above ++ [name]) inner names) := by
  constructor
  · rintro ⟨l, hholds, hfile, hpasses, henters⟩
    cases hholds with
    | entry hl => exact ⟨henters, .inl ⟨rfl, l, hl, hfile⟩⟩
    | inside hinner hrest =>
      obtain ⟨hname, hpasses⟩ := (passes_cons_iff hrest.ne_nil).1 hpasses
      exact ⟨hname, .inr ⟨_, hinner, l, hrest, hfile, hpasses, by simpa using henters⟩⟩
  · rintro ⟨hname, ⟨rfl, l, hl, hfile⟩ | ⟨inner, hinner, l, hrest, hfile, hpasses, henters⟩⟩
    · exact ⟨l, .entry hl, hfile, passes_singleton enters above name, hname⟩
    · exact ⟨l, .inside hinner hrest, hfile, (passes_cons_iff hrest.ne_nil).2 ⟨hname, hpasses⟩,
        by simpa using henters⟩

/-- What is met at or below one entry. -/
theorem meets_singleton_iff {name : Text} : Meets enters above [(name, l)] names ↔
    enters (above ++ [name]) = true ∧ (names = [name] ∧ l.isFile = false ∨
      ∃ inner rest, l = .directory inner ∧ names = name :: rest ∧
        Meets enters (above ++ [name]) inner rest) := by
  cases names with
  | nil => simpa using fun h : Meets enters above [(name, l)] [] => h.ne_nil rfl
  | cons first rest =>
    rw [meets_cons_iff]
    grind

theorem Meets.exists_eq_cons {name : Text} (h : Meets enters above [(name, l)] names) :
    ∃ rest, names = name :: rest := by
  obtain ⟨-, ⟨rfl, -⟩ | ⟨-, rest, -, rfl, -⟩⟩ := meets_singleton_iff.1 h
  · exact ⟨[], rfl⟩
  · exact ⟨rest, rfl⟩

/-- A directory is met at or below one of the entries. -/
theorem meets_iff_exists (entries : List (Text × Listing)) : Meets enters above entries names ↔
    ∃ pair ∈ entries, Meets enters above [pair] names := by
  cases names with
  | nil => exact ⟨fun h => absurd rfl h.ne_nil, fun ⟨_, _, h⟩ => absurd rfl h.ne_nil⟩
  | cons name names =>
    simp only [meets_cons_iff, List.mem_singleton]
    grind

theorem meets_cons_entries_iff {pair : Text × Listing} :
    Meets enters above (pair :: entries) names ↔
      Meets enters above [pair] names ∨ Meets enters above entries names := by
  rw [meets_iff_exists (pair :: entries), List.exists_mem_cons_iff, ← meets_iff_exists]

/-- The files of a directory, which lies at `above`. -/
def filesIn (above : List Text) (entries : List (Text × Listing)) : List (List Text) :=
  (entries.filter (·.2.isFile)).map (above ++ [·.1])

variable {ε : Type}

mutual

/-- The files below an entry, which lies at `above`, at most `depth` levels down. The fault `e` ends
the walk if it is to go deeper. -/
def walkEntry (e : ε) (enters : List Text → Bool) (depth : Nat) (above : List Text) :
    Listing → Found ε (List Text)
  | .file | .overlongLink => {}
  | .linkedDirectory | .closedDirectory =>
    if enters above then if depth = 0 then { fault := some e } else {} else {}
  | .directory entries =>
    if enters above then
      if depth = 0 then { fault := some e }
      else { items := filesIn above entries } ++ walkBelow e enters (depth - 1) above entries
    else {}

/-- The files below the directories among some entries. -/
def walkBelow (e : ε) (enters : List Text → Bool) (depth : Nat) (above : List Text) :
    List (Text × Listing) → Found ε (List Text)
  | [] => {}
  | (name, l) :: rest =>
    walkEntry e enters depth (above ++ [name]) l ++ walkBelow e enters depth above rest

end

/-- The files in a directory, which lies at `above`, and below it, for a walk that goes into the
directories that pass a test. -/
def walkFrom (e : ε) (enters : List Text → Bool) (depth : Nat) (above : List Text)
    (entries : List (Text × Listing)) : Found ε (List Text) :=
  { items := filesIn above entries } ++ walkBelow e enters depth above entries

variable {e : ε} {depth : Nat}

theorem walkEntry_directory (e : ε) (inner : List (Text × Listing)) :
    walkEntry e enters depth above (.directory inner) =
      if enters above then
        if depth = 0 then { fault := some e } else walkFrom e enters (depth - 1) above inner
      else {} := by
  rw [walkEntry, walkFrom]

theorem mem_walkEntry_iff : names ∈ (walkEntry e enters depth above l).items ↔
    ∃ inner, l = .directory inner ∧ enters above = true ∧ depth ≠ 0 ∧
      names ∈ (walkFrom e enters (depth - 1) above inner).items := by
  cases l with
  | file | overlongLink => simp [walkEntry]
  | linkedDirectory | closedDirectory =>
    rw [walkEntry]
    split_ifs <;> simp
  | directory inner =>
    rw [walkEntry_directory]
    split_ifs <;> simp_all

mutual

theorem eq_of_fault_walkEntry {f : ε} {depth : Nat} {above : List Text} : {l : Listing} →
    (walkEntry e enters depth above l).fault = some f → f = e
  | .file, h | .overlongLink, h => by simp [walkEntry] at h
  | .linkedDirectory, h | .closedDirectory, h => by
    rw [walkEntry] at h
    split_ifs at h
    exact (Option.some_inj.1 h).symm
  | .directory inner, h => by
    rw [walkEntry] at h
    split_ifs at h
    · simp_all
    · exact eq_of_fault_walkBelow (by simpa [Found.append_of_none] using h)

/-- A walk has one fault only. -/
theorem eq_of_fault_walkBelow {f : ε} {depth : Nat} {above : List Text} :
    {entries : List (Text × Listing)} →
      (walkBelow e enters depth above entries).fault = some f → f = e
  | [], h => by simp [walkBelow] at h
  | (name, l) :: entries, h => by
    rw [walkBelow, Found.fault_append_eq_some] at h
    obtain h | ⟨-, h⟩ := h
    · exact eq_of_fault_walkEntry h
    · exact eq_of_fault_walkBelow h

end

theorem eq_of_fault_walkFrom {f : ε} (h : (walkFrom e enters depth above entries).fault = some f) :
    f = e :=
  eq_of_fault_walkBelow (by simpa [walkFrom, Found.append_of_none] using h)

theorem mem_filesIn : names ∈ filesIn above entries ↔
    ∃ name l, (name, l) ∈ entries ∧ l.isFile = true ∧ names = above ++ [name] := by
  simp only [filesIn, List.mem_map, List.mem_filter, Prod.exists]
  grind

/-! ### How deep walks go -/

/-- A walk through an entry comes to its end if it is not to go deeper than `depth`. -/
theorem fault_walkEntry {name : Text} {l : Listing}
    (hinner : ∀ inner, l = .directory inner → ∀ (depth : Nat) (above : List Text),
      (walkFrom e enters depth above inner).fault = none ↔
        ∀ deep, Meets enters above inner deep → deep.length ≤ depth)
    (depth : Nat) (above : List Text) :
    (walkEntry e enters depth (above ++ [name]) l).fault = none ↔
      ∀ deep, Meets enters above [(name, l)] deep → deep.length ≤ depth := by
  simp only [meets_singleton_iff]
  cases henters : enters (above ++ [name]) with
  | false => cases l <;> simp [walkEntry, henters]
  | true =>
    cases l with
    | file | overlongLink => simp [walkEntry, isFile]
    | linkedDirectory | closedDirectory =>
      cases depth <;> simp [walkEntry, henters, isFile]
    | directory inner =>
      rw [walkEntry_directory, henters, if_pos rfl]
      cases depth with
      | zero => simp [isFile]
      | succ depth =>
        rw [if_neg (Nat.succ_ne_zero depth), Nat.add_sub_cancel, hinner inner rfl]
        constructor
        · rintro h deep ⟨-, ⟨rfl, -⟩ | ⟨_, rest, hl, rfl, hrest⟩⟩
          · simp
          · cases hl
            simpa using h rest hrest
        · intro h rest hrest
          simpa using h (name :: rest) ⟨rfl, .inr ⟨inner, rest, rfl, rfl, hrest⟩⟩

/-- A walk comes to its end if no directory lies too deep. -/
theorem fault_walkFrom : (walkFrom e enters depth above entries).fault = none ↔
    ∀ deep, Meets enters above entries deep → deep.length ≤ depth := by
  induction entries using entries_induction generalizing depth above with
  | step entries ih =>
    -- `ih` is about what the entries hold; they are gone through one after the other
    have hpart : ∀ part : List (Text × Listing), part ⊆ entries →
        ((walkBelow e enters depth above part).fault = none ↔
          ∀ deep, Meets enters above part deep → deep.length ≤ depth) := by
      intro part hpart
      induction part with
      | nil =>
        refine iff_of_true rfl fun deep h => ?_
        obtain ⟨_, hpair, -⟩ := (meets_iff_exists []).1 h
        exact absurd hpair List.not_mem_nil
      | cons pair part ihpart =>
        obtain ⟨name, l⟩ := pair
        obtain ⟨hpair, hpart⟩ := List.cons_subset.1 hpart
        have hentry : (walkEntry e enters depth (above ++ [name]) l).fault = none ↔
            ∀ deep, Meets enters above [(name, l)] deep → deep.length ≤ depth :=
          fault_walkEntry (fun inner hl _ _ => ih name inner (hl ▸ hpair)) depth above
        rw [walkBelow, Found.fault_append, ihpart hpart, hentry]
        constructor
        · rintro ⟨hfirst, hrest⟩ deep h
          exact (meets_cons_entries_iff.1 h).elim (hfirst deep) (hrest deep)
        · exact fun h => ⟨fun deep hdeep => h deep (meets_cons_entries_iff.2 (.inl hdeep)),
            fun deep hdeep => h deep (meets_cons_entries_iff.2 (.inr hdeep))⟩
    rw [walkFrom, Found.fault_append, hpart entries (List.Subset.refl _)]
    exact and_iff_right rfl

end Listing

/-! ## The order of the files -/

/-- One text before another in the order of the code points. -/
def Text.IsBefore (a b : Text) : Prop := Text.le a b = true ∧ a ≠ b

/-- The order of files by their names: those of a directory before those of its subdirectories, and
in either part by the first names. -/
def ComesBefore : List Text → List Text → Prop
  | [a], [b] => a.IsBefore b
  | [_], _ :: _ :: _ => True
  | a :: a' :: as, b :: b' :: bs => a.IsBefore b ∨ a = b ∧ ComesBefore (a' :: as) (b' :: bs)
  | _, _ => False

theorem Text.IsBefore.asymm {a b : Text} (h : a.IsBefore b) : ¬b.IsBefore a :=
  fun h' => h.2 (Text.le_antisymm h.1 h'.1)

theorem ComesBefore.asymm {a b : List Text} (h : ComesBefore a b) : ¬ComesBefore b a := by
  fun_induction ComesBefore a b with
  | case1 a b => exact h.asymm
  | case2 => simp [ComesBefore]
  | case3 a a' as b b' bs ih =>
    rintro (hba | ⟨rfl, hrest⟩)
    · obtain hab | ⟨rfl, -⟩ := h
      · exact hab.asymm hba
      · exact hba.2 rfl
    · obtain hab | ⟨-, hab⟩ := h
      · exact hab.2 rfl
      · exact ih hab hrest
  | case4 => exact h.elim

theorem ComesBefore.ne {a b : List Text} (h : ComesBefore a b) : a ≠ b := by
  rintro rfl
  exact h.asymm h

theorem comesBefore_append (above : List Text) {a b : List Text} (ha : a ≠ []) (hb : b ≠ []) :
    ComesBefore (above ++ a) (above ++ b) ↔ ComesBefore a b := by
  induction above with
  | nil => rfl
  | cons name above ih =>
    obtain ⟨x, xs, hx⟩ := List.exists_cons_of_ne_nil (List.append_ne_nil_of_right_ne_nil above ha)
    obtain ⟨y, ys, hy⟩ := List.exists_cons_of_ne_nil (List.append_ne_nil_of_right_ne_nil above hb)
    rw [← ih, List.cons_append, List.cons_append, hx, hy, ComesBefore]
    simp [Text.IsBefore]

/-- Whether a file comes before all that could be in a directory. -/
def Precedes (names deep : List Text) : Prop := ∀ name, ComesBefore names (deep ++ [name])

theorem precedes_singleton (name : Text) {deep : List Text} (hne : deep ≠ []) :
    Precedes [name] deep := by
  intro last
  obtain ⟨first, deep, rfl⟩ := List.exists_cons_of_ne_nil hne
  cases deep <;> trivial

theorem precedes_cons_iff {a b : Text} {rest deep : List Text} (hne : rest ≠ []) :
    Precedes (a :: rest) (b :: deep) ↔ a.IsBefore b ∨ a = b ∧ Precedes rest deep := by
  obtain ⟨next, rest, rfl⟩ := List.exists_cons_of_ne_nil hne
  have hcons (name : Text) : ComesBefore (a :: next :: rest) (b :: deep ++ [name]) ↔
      a.IsBefore b ∨ a = b ∧ ComesBefore (next :: rest) (deep ++ [name]) := by
    cases deep <;> rfl
  simp only [Precedes, hcons, forall_or_left, forall_and_left]

/-- The files in a directory do not come before all of them. -/
theorem not_precedes_nil {names : List Text} (hne : names ≠ []) : ¬Precedes names [] := by
  obtain ⟨first, rest, rfl⟩ := List.exists_cons_of_ne_nil hne
  intro h
  cases rest with
  | nil => exact (h first).2 rfl
  | cons next rest => exact h first

/-- In this order there is one list of the files alone. -/
theorem eq_of_pairwise_comesBefore {files files' : List (List Text)}
    (h : files.Pairwise ComesBefore) (h' : files'.Pairwise ComesBefore)
    (hmem : ∀ names, names ∈ files ↔ names ∈ files') : files = files' := by
  have hperm : files.Perm files' :=
    (List.perm_ext_iff_of_nodup (h.imp ComesBefore.ne) (h'.imp ComesBefore.ne)).2 hmem
  exact hperm.eq_of_pairwise (fun _ _ _ _ hab hba => absurd hba hab.asymm) h h'

namespace Listing

variable {ε : Type} {e : ε} {depth : Nat} {entries : List (Text × Listing)}
  {names above : List Text} {enters : List Text → Bool}

/-- Entries in which no name is twice in a directory. -/
inductive Unrepeated : List (Text × Listing) → Prop where
  | intro {entries : List (Text × Listing)} (hnames : (entries.map Prod.fst).Nodup)
      (hbelow : ∀ name inner, (name, .directory inner) ∈ entries → Unrepeated inner) :
      Unrepeated entries

/-- Entries in which every directory is in the order of its names. -/
inductive Ascending : List (Text × Listing) → Prop where
  | intro {entries : List (Text × Listing)}
      (hnames : entries.Pairwise fun a b => a.1.IsBefore b.1)
      (hbelow : ∀ name inner, (name, .directory inner) ∈ entries → Ascending inner) :
      Ascending entries

theorem map_fst_sortAll (entries : List (Text × Listing)) :
    (sortAll entries).map Prod.fst = entries.map Prod.fst := by
  simp [sortAll_eq_map]

theorem pairwise_sorted (h : (entries.map Prod.fst).Nodup) :
    (sorted entries).Pairwise fun a b => a.1.IsBefore b.1 := by
  have hle : (sorted entries).Pairwise fun a b => Text.le a.1 b.1 = true :=
    @List.pairwise_mergeSort (Text × Listing) (fun a b => Text.le a.1 b.1)
      (fun _ _ _ => Text.le_trans) (fun a b => Text.le_total a.1 b.1) (sortAll entries)
  have hperm : ((sorted entries).map Prod.fst).Perm (entries.map Prod.fst) :=
    map_fst_sortAll entries ▸ (List.mergeSort_perm (sortAll entries) _).map Prod.fst
  have hne : (sorted entries).Pairwise fun a b => a.1 ≠ b.1 :=
    List.pairwise_map.1 (hperm.nodup_iff.2 h)
  exact hle.and hne

theorem Unrepeated.ascending_sorted (h : Unrepeated entries) : Ascending (sorted entries) := by
  induction h with
  | intro hnames _ ih =>
    refine .intro (pairwise_sorted hnames) fun name inner hinner => ?_
    obtain ⟨l, hl, hsort⟩ := mem_sorted.1 hinner
    obtain ⟨inner, rfl, rfl⟩ := sort_eq_directory hsort
    exact ih name inner hl

theorem pairwise_filesIn (h : entries.Pairwise fun a b => a.1.IsBefore b.1) :
    (filesIn above entries).Pairwise ComesBefore := by
  rw [filesIn, List.pairwise_map]
  refine (h.filter _).imp fun {a b} hab => ?_
  exact (comesBefore_append above (by simp) (by simp)).2 hab

/-- Whether a walk that goes at most `depth` levels down comes to a file, by some names: the file
comes before all directories that lie too deep. -/
def FindsWithin (enters : List Text → Bool) (depth : Nat) (above : List Text)
    (entries : List (Text × Listing)) (names : List Text) : Prop :=
  Finds enters above entries names ∧
    ∀ deep, Meets enters above entries deep → depth < deep.length → Precedes names deep

/-- A walk through an entry comes to the files of a directory until it ends. -/
theorem mem_walkEntry {name : Text} {l : Listing}
    (hinner : ∀ inner, l = .directory inner → ∀ (depth : Nat) (above : List Text),
      names ∈ (walkFrom e enters depth above inner).items ↔
        ∃ rest, names = above ++ rest ∧ FindsWithin enters depth above inner rest)
    (depth : Nat) (above : List Text) :
    names ∈ (walkEntry e enters depth (above ++ [name]) l).items ↔
      ∃ inner rest, l = .directory inner ∧ enters (above ++ [name]) = true ∧
        names = above ++ name :: rest ∧ Finds enters (above ++ [name]) inner rest ∧
          ∀ deep, Meets enters above [(name, l)] deep → depth < deep.length →
            Precedes (name :: rest) deep := by
  rw [mem_walkEntry_iff]
  constructor
  · rintro ⟨inner, rfl, henters, hdepth, hnames⟩
    obtain ⟨rest, rfl, hfinds, hdeep⟩ := (hinner inner rfl _ _).1 hnames
    refine ⟨inner, rest, rfl, henters, by simp, hfinds, fun deep hmeets hlength => ?_⟩
    obtain ⟨-, ⟨rfl, -⟩ | ⟨_, deep, hl, rfl, hmeets⟩⟩ := meets_singleton_iff.1 hmeets
    · simp only [List.length_singleton] at hlength
      omega
    · cases hl
      rw [List.length_cons] at hlength
      exact (precedes_cons_iff hfinds.ne_nil).2 (.inr ⟨rfl, hdeep deep hmeets (by omega)⟩)
  · rintro ⟨inner, rest, rfl, henters, rfl, hfinds, hdeep⟩
    -- nothing in the directory comes before all that is in it
    have hdepth : depth ≠ 0 := by
      rintro rfl
      have hbefore := hdeep [name] (meets_singleton_iff.2 ⟨henters, .inl ⟨rfl, rfl⟩⟩) (by simp)
      obtain hbefore | ⟨-, hbefore⟩ := (precedes_cons_iff hfinds.ne_nil).1 hbefore
      · exact hbefore.2 rfl
      · exact not_precedes_nil hfinds.ne_nil hbefore
    refine ⟨inner, rfl, henters, hdepth, (hinner inner rfl _ _).2 ⟨rest, by simp, hfinds, ?_⟩⟩
    intro deep hmeets hlength
    have hbefore := hdeep (name :: deep)
      (meets_singleton_iff.2 ⟨henters, .inr ⟨inner, deep, rfl, rfl, hmeets⟩⟩)
      (by rw [List.length_cons]; omega)
    exact (((precedes_cons_iff hfinds.ne_nil).1 hbefore).resolve_left fun h => h.2 rfl).2

/-- A walk through entries in the order of their names comes to the files that come before all
directories that lie too deep. -/
theorem mem_walkBelow
    (hinner : ∀ name inner, (name, .directory inner) ∈ entries → ∀ (depth : Nat)
      (above : List Text), names ∈ (walkFrom e enters depth above inner).items ↔
        ∃ rest, names = above ++ rest ∧ FindsWithin enters depth above inner rest)
    (hnames : entries.Pairwise fun a b => a.1.IsBefore b.1) :
    names ∈ (walkBelow e enters depth above entries).items ↔
      ∃ name inner rest, (name, .directory inner) ∈ entries ∧ enters (above ++ [name]) = true ∧
        names = above ++ name :: rest ∧ Finds enters (above ++ [name]) inner rest ∧
          ∀ deep, Meets enters above entries deep → depth < deep.length →
            Precedes (name :: rest) deep := by
  induction entries with
  | nil => simp [walkBelow]
  | cons pair entries ih =>
    obtain ⟨first, l⟩ := pair
    obtain ⟨hfirst, hnames⟩ := List.pairwise_cons.1 hnames
    have hfault : (walkEntry e enters depth (above ++ [first]) l).fault = none ↔
        ∀ deep, Meets enters above [(first, l)] deep → deep.length ≤ depth :=
      fault_walkEntry (fun _ _ _ _ => fault_walkFrom) depth above
    rw [walkBelow, Found.mem_append, hfault,
      mem_walkEntry fun inner hl => hinner first inner (hl ▸ List.mem_cons_self),
      ih (fun name inner hl => hinner name inner (List.mem_cons_of_mem _ hl)) hnames]
    constructor
    · rintro (⟨inner, rest, rfl, henters, rfl, hfinds, hdeep⟩ |
        ⟨hends, name, inner, rest, hl, henters, rfl, hfinds, hdeep⟩)
      · refine ⟨first, inner, rest, List.mem_cons_self, henters, rfl, hfinds,
          fun deep h hlength => ?_⟩
        obtain h | h := meets_cons_entries_iff.1 h
        · exact hdeep deep h hlength
        -- what is met at later entries is behind what is found in the first one
        · obtain ⟨pair, hpair, h⟩ := (meets_iff_exists entries).1 h
          obtain ⟨deep, rfl⟩ := h.exists_eq_cons
          exact (precedes_cons_iff hfinds.ne_nil).2 (.inl (hfirst pair hpair))
      · refine ⟨name, inner, rest, List.mem_cons_of_mem _ hl, henters, rfl, hfinds,
          fun deep h hlength => ?_⟩
        obtain h | h := meets_cons_entries_iff.1 h
        · exact absurd (hends deep h) (Nat.not_le.2 hlength)
        · exact hdeep deep h hlength
    · rintro ⟨name, inner, rest, hl, henters, rfl, hfinds, hdeep⟩
      obtain hl | hlater := List.mem_cons.1 hl
      · cases hl
        exact .inl ⟨inner, rest, rfl, henters, rfl, hfinds,
          fun deep h hlength => hdeep deep (meets_cons_entries_iff.2 (.inl h)) hlength⟩
      · refine .inr ⟨fun deep h => ?_, name, inner, rest, hlater, henters, rfl, hfinds,
          fun deep h hlength => hdeep deep (meets_cons_entries_iff.2 (.inr h)) hlength⟩
        by_contra hlength
        have hbefore := hdeep deep (meets_cons_entries_iff.2 (.inl h)) (Nat.not_le.1 hlength)
        obtain ⟨deep, rfl⟩ := h.exists_eq_cons
        obtain hbefore | ⟨rfl, -⟩ := (precedes_cons_iff hfinds.ne_nil).1 hbefore
        · exact (hfirst _ hlater).asymm hbefore
        · exact (hfirst _ hlater).2 rfl

/-- A walk comes to the files that it finds, if the directories are in their order, up to the first
directory that lies too deep. -/
theorem Ascending.mem_walkFrom (h : Ascending entries) :
    names ∈ (walkFrom e enters depth above entries).items ↔
      ∃ rest, names = above ++ rest ∧ FindsWithin enters depth above entries rest := by
  induction h generalizing depth above with
  | @intro entries hnames _ ih =>
    rw [walkFrom, Found.mem_append, mem_filesIn,
      mem_walkBelow (fun name inner hl depth above => ih name inner hl) hnames]
    constructor
    · rintro (⟨name, l, hl, hfile, rfl⟩ | ⟨-, name, inner, rest, hl, henters, rfl, hfinds, hdeep⟩)
      · exact ⟨[name], rfl, finds_cons_iff.2 (.inl ⟨rfl, l, hl, hfile⟩),
          fun deep h _ => precedes_singleton name h.ne_nil⟩
      · exact ⟨name :: rest, rfl, finds_cons_iff.2 (.inr ⟨inner, hl, henters, hfinds⟩), hdeep⟩
    · rintro ⟨rest, rfl, hfinds, hdeep⟩
      obtain ⟨name, rest, rfl⟩ := List.exists_cons_of_ne_nil hfinds.ne_nil
      obtain ⟨rfl, l, hl, hfile⟩ | ⟨inner, hl, henters, hfinds⟩ := finds_cons_iff.1 hfinds
      · exact .inl ⟨name, l, hl, hfile, rfl⟩
      · exact .inr ⟨rfl, name, inner, rest, hl, henters, rfl, hfinds, hdeep⟩

theorem items_walkBelow_sublist (entries : List (Text × Listing)) :
    (walkBelow e enters depth above entries).items.Sublist (entries.flatMap fun pair =>
      (walkEntry e enters depth (above ++ [pair.1]) pair.2).items) := by
  induction entries with
  | nil => exact List.Sublist.refl _
  | cons pair entries ih =>
    rw [walkBelow, List.flatMap_cons]
    exact (Found.items_append_sublist _ _).trans (.append (.refl _) ih)

/-- Whatever a walk comes to is below where it starts. -/
theorem exists_of_mem_walkFrom (h : names ∈ (walkFrom e enters depth above entries).items) :
    ∃ rest, rest ≠ [] ∧ names = above ++ rest := by
  induction entries using entries_induction generalizing depth above with
  | step entries ih =>
    rw [walkFrom, Found.mem_append] at h
    obtain h | ⟨-, h⟩ := h
    · obtain ⟨name, l, -, -, rfl⟩ := mem_filesIn.1 h
      exact ⟨[name], by simp, rfl⟩
    · obtain ⟨⟨name, l⟩, hl, h⟩ := List.mem_flatMap.1 ((items_walkBelow_sublist entries).subset h)
      obtain ⟨inner, rfl, -, -, h⟩ := mem_walkEntry_iff.1 h
      obtain ⟨rest, -, rfl⟩ := ih name inner hl h
      exact ⟨name :: rest, by simp, by simp⟩

/-- A walk comes to the files in their order, if the directories are in theirs. -/
theorem Ascending.pairwise_walkFrom (h : Ascending entries) :
    (walkFrom e enters depth above entries).items.Pairwise ComesBefore := by
  induction h generalizing depth above with
  | @intro entries hnames _ ih =>
    -- what is below an entry has its name and at least one more
    have hbelow {pair : Text × Listing} {names : List Text}
        (h : names ∈ (walkEntry e enters depth (above ++ [pair.1]) pair.2).items) :
        ∃ next rest, names = above ++ pair.1 :: next :: rest := by
      obtain ⟨inner, -, -, -, h⟩ := mem_walkEntry_iff.1 h
      obtain ⟨rest, hrest, rfl⟩ := exists_of_mem_walkFrom h
      obtain ⟨next, rest, rfl⟩ := List.exists_cons_of_ne_nil hrest
      exact ⟨next, rest, by simp⟩
    refine List.Pairwise.sublist ((Found.items_append_sublist _ _).trans
      (.append (.refl _) (items_walkBelow_sublist entries))) ?_
    rw [List.pairwise_append, List.pairwise_flatMap]
    refine ⟨pairwise_filesIn hnames, ⟨fun pair hpair => ?_, hnames.imp fun hab x hx y hy => ?_⟩,
      fun x hx y hy => ?_⟩
    · obtain ⟨name, l⟩ := pair
      cases l with
      | directory inner =>
        rw [walkEntry_directory]
        split
        · split
          · exact .nil
          · exact ih name inner hpair
        · exact .nil
      | file | overlongLink => simp [walkEntry]
      | linkedDirectory | closedDirectory =>
        rw [walkEntry]
        split
        · split <;> exact .nil
        · exact .nil
    · obtain ⟨next, rest, rfl⟩ := hbelow hx
      obtain ⟨next', rest', rfl⟩ := hbelow hy
      exact (comesBefore_append above (by simp) (by simp)).2 (.inl hab)
    · obtain ⟨pair, -, hy⟩ := List.mem_flatMap.1 hy
      obtain ⟨next, rest, rfl⟩ := hbelow hy
      obtain ⟨file, -, rfl⟩ := List.mem_map.1 hx
      exact (comesBefore_append above (by simp) (by simp)).2 trivial

/-! ## Leaving out directories -/

/-- A walk may leave out the directories below which nothing is wanted. It finds what a walk into
all directories does, and goes on where that one ends. -/
theorem stopsBefore_filter_walkFrom {keep : List Text → Bool}
    (h : ∀ names inner rest, Holds entries names (.directory inner) → rest ≠ [] →
      enters (above ++ names) = false → keep (above ++ names ++ rest) = false) :
    ((walkFrom e (fun _ => true) depth above entries).filter keep).StopsBefore
      ((walkFrom e enters depth above entries).filter keep) := by
  induction entries using entries_induction generalizing depth above with
  | step entries ih =>
    have hpart : ∀ part : List (Text × Listing), part ⊆ entries →
        ((walkBelow e (fun _ => true) depth above part).filter keep).StopsBefore
          ((walkBelow e enters depth above part).filter keep) := by
      intro part hpart
      induction part with
      | nil => exact .refl _
      | cons pair part ihpart =>
        obtain ⟨name, l⟩ := pair
        obtain ⟨hpair, hpart⟩ := List.cons_subset.1 hpart
        rw [walkBelow, walkBelow, Found.filter_append, Found.filter_append]
        refine .append ?_ (ihpart hpart)
        cases l with
        | file | overlongLink => simpa only [walkEntry] using .refl _
        | linkedDirectory | closedDirectory =>
          rw [walkEntry, walkEntry, if_pos rfl]
          cases enters (above ++ [name]) with
          | true => exact .refl _
          | false =>
            cases depth with
            | zero => exact .inr ⟨by simp [Found.filter], List.prefix_refl _⟩
            | succ depth => exact .refl _
        | directory inner =>
          rw [walkEntry_directory, walkEntry_directory, if_pos rfl]
          cases henters : enters (above ++ [name]) with
          | true =>
            rw [if_pos rfl]
            cases depth with
            | zero => exact .refl _
            | succ depth =>
              refine ih name inner hpair fun names deeper rest hdeeper hrest hout => ?_
              have hkeep := h (name :: names) deeper rest (.inside hpair hdeeper) hrest
                (by simpa using hout)
              simpa using hkeep
          | false =>
            -- nothing that is found there is wanted
            have hnone (depth : Nat) : ((walkFrom e (fun _ => true) depth (above ++ [name])
                inner).filter keep).items = [] := by
              refine List.filter_eq_nil_iff.2 fun names hnames => ?_
              obtain ⟨rest, hrest, rfl⟩ := exists_of_mem_walkFrom hnames
              have hkeep := h [name] inner rest (.entry hpair) hrest henters
              simpa using hkeep
            cases depth with
            | zero => exact .inr ⟨by simp [Found.filter], List.prefix_refl _⟩
            | succ depth =>
              rw [if_neg (Nat.succ_ne_zero depth), Nat.add_sub_cancel]
              cases hfault : (walkFrom e (fun _ => true) depth (above ++ [name]) inner).fault with
              | none =>
                left
                rw [Found.filter, hfault]
                exact congrArg (Found.mk · none) (hnone depth)
              | some fault =>
                refine .inr ⟨by simp [Found.filter, hfault], ?_⟩
                rw [hnone]
                exact List.nil_prefix
    rw [walkFrom, walkFrom, Found.filter_append, Found.filter_append]
    exact .append (.refl _) (hpart entries (List.Subset.refl _))

end Listing
end TagsFile
