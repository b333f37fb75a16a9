import TagsFile.Proofs.Changes

/-!
# Where paths may lead

While directories are made and files are replaced, a path may come to more places than it did
before. The links of the first file system tell all of them: what is missing on the way may have
become a directory, and what comes last may be there or not.

## Main definitions

* `FileSystem.Reaches`: a location that names may come to.
* `FileSystem.MayLead`: a location that a path may come to.
* `FileSystem.Ends`, `FileSystem.EndsAt`: the one location where names or a path end, when a link
  that comes last is not followed.
* `FileSystem.Later`: a file system without new links, in which at most files have taken the places
  of links.
-/

namespace TagsFile

/-- The location of what a path leads to. -/
def Target.location? : Target → Option Location
  | .present loc _ => some loc
  | .vacant loc => some loc
  | .lost _ => none

namespace FileSystem

variable {node node₀ : Location → Option Node} {fs fs₀ : FileSystem} {here : Here}

/-- A location that names may come to from another, if what is missing on the way may be there. A
link that comes last is followed or not. -/
inductive Reaches (node : Location → Option Node) : Location → List Text → Location → Prop where
  | done {loc : Location} : Reaches node loc [] loc
  | stay {loc dest : Location} {name : Text} {rest : List Text} (hname : name = "" ∨ name = ".")
      (hrest : Reaches node loc rest dest) : Reaches node loc (name :: rest) dest
  | up {loc dest : Location} {rest : List Text} (hrest : Reaches node loc.dropLast rest dest) :
      Reaches node loc (".." :: rest) dest
  | down {loc dest : Location} {name : Text} {rest : List Text}
      (hname : name ≠ "" ∧ name ≠ "." ∧ name ≠ "..")
      (hlink : ∀ target, node (loc ++ [name]) ≠ some (.link target))
      (hrest : Reaches node (loc ++ [name]) rest dest) : Reaches node loc (name :: rest) dest
  | link {loc dest : Location} {name : Text} {rest : List Text} {target : Text}
      (hname : name ≠ "" ∧ name ≠ "." ∧ name ≠ "..")
      (hnode : node (loc ++ [name]) = some (.link target))
      (hrest : Reaches node (if startsAtRoot target then [] else loc) (pieces target ++ rest)
        dest) :
      Reaches node loc (name :: rest) dest
  | last {loc : Location} {name : Text} (hname : name ≠ "" ∧ name ≠ "." ∧ name ≠ "..") :
      Reaches node loc [name] (loc ++ [name])

/-- Whether all links were there before, and at most files stand where other links were. -/
structure Later (node₀ node : Location → Option Node) : Prop where
  links : ∀ loc target, node loc = some (.link target) → node₀ loc = some (.link target)
  files : ∀ loc target, node₀ loc = some (.link target) →
    node loc = some (.link target) ∨ ∃ content time, node loc = some (.file content time)

theorem Later.refl (node : Location → Option Node) : Later node node where
  links _ _ h := h
  files _ _ h := .inl h

theorem Later.ne_link (h : Later node₀ node) {loc : Location}
    (hdir : node loc = some .directory) (target : Text) : node₀ loc ≠ some (.link target) := by
  intro hlink
  obtain hlink' | ⟨content, time, hfile⟩ := h.files loc target hlink
  · cases hdir.symm.trans hlink'
  · cases hdir.symm.trans hfile

/-- Names come to no other places later. -/
theorem Later.reaches (h : Later node₀ node) {purpose : Purpose} {budget : Nat}
    {loc dest : Location} {names : List Text}
    (hwalk : walk node purpose budget loc names = .ok dest) : Reaches node₀ loc names dest := by
  fun_induction walk node purpose budget loc names with
  | case1 =>
    cases hwalk
    exact .done
  | case2 budget loc name rest hloc hname ih => exact .stay (stays_iff.1 hname) (ih hwalk)
  | case3 budget loc rest hloc hname ih => exact .up (ih hwalk)
  | case6 budget loc name hloc hname hup =>
    cases hwalk
    exact .last (plain_iff.2 ⟨hname, hup⟩)
  | case8 budget loc name rest hloc hname hup hslash hlong target hlink hlast =>
    cases hwalk
    obtain rfl : rest = [] := by simp_all
    exact .last (plain_iff.2 ⟨hname, hup⟩)
  | case10 loc name rest hloc hname hup hslash hlong target hlink hlast budget ih =>
    exact .link (plain_iff.2 ⟨hname, hup⟩) (h.links _ _ hlink) (by simpa using ih hwalk)
  | case11 budget loc name rest hloc hname hup hslash hlong n hlink hnode ih =>
    have hplain := plain_iff.2 ⟨hname, hup⟩
    cases n with
    | link target => exact absurd rfl (hlink target)
    | directory => exact .down hplain (h.ne_link hnode) (ih hwalk)
    | file content time =>
      -- nothing lies behind a file, which may stand where a link was
      cases rest with
      | nil =>
        rw [walk, Except.ok.injEq] at hwalk
        subst hwalk
        exact .last hplain
      | cons next rest => simp [walk, hnode] at hwalk
  | _ => cases hwalk

section Names

variable {loc dest : Location} {name : Text} {rest : List Text}

theorem Reaches.of_stay (h : Reaches node loc (name :: rest) dest)
    (hname : name = "" ∨ name = ".") :
    Reaches node loc rest dest := by
  have hplain (hname' : name ≠ "" ∧ name ≠ "." ∧ name ≠ "..") : False :=
    hname.elim hname'.1 hname'.2.1
  cases h with
  | stay _ hrest => exact hrest
  | up => exact absurd hname (by decide)
  | down hname' | link hname' | last hname' => exact (hplain hname').elim

theorem Reaches.of_up (h : Reaches node loc (".." :: rest) dest) :
    Reaches node loc.dropLast rest dest := by
  cases h with
  | stay hname => exact absurd hname (by decide)
  | up hrest => exact hrest
  | down hname | link hname | last hname => exact absurd rfl hname.2.2

theorem Reaches.of_entry (h : Reaches node loc (name :: rest) dest)
    (hname : name ≠ "" ∧ name ≠ "." ∧ name ≠ "..")
    (hlink : ∀ target, node (loc ++ [name]) ≠ some (.link target)) :
    Reaches node (loc ++ [name]) rest dest := by
  cases h with
  | stay hstay => exact (hstay.elim hname.1 hname.2.1).elim
  | up => exact absurd rfl hname.2.2
  | down _ _ hrest => exact hrest
  | link _ hnode => exact absurd hnode (hlink _)
  | last => exact .done

theorem Reaches.of_link {target : Text} (h : Reaches node loc (name :: rest) dest)
    (hrest : rest ≠ [])
    (hname : name ≠ "" ∧ name ≠ "." ∧ name ≠ "..")
    (hnode : node (loc ++ [name]) = some (.link target)) :
    Reaches node (if startsAtRoot target then [] else loc) (pieces target ++ rest) dest := by
  cases h with
  | stay hstay => exact (hstay.elim hname.1 hname.2.1).elim
  | up => exact absurd rfl hname.2.2
  | down _ hlink => exact absurd hnode (hlink target)
  | link _ hnode' hreaches =>
    cases hnode.symm.trans hnode'
    exact hreaches
  | last => exact absurd rfl hrest

/-- Names behind a way come to what they come to from its end. -/
theorem Leads.reaches_of_append {budget budget' : Nat} {between : Location} {names more : List Text}
    (h : Leads node budget loc names budget' between) (hmore : more ≠ [])
    (hreaches : Reaches node loc (names ++ more) dest) : Reaches node between more dest := by
  induction h with
  | done => exact hreaches
  | stay _ hname _ ih => exact ih (hreaches.of_stay hname)
  | up _ _ ih => exact ih hreaches.of_up
  | down _ hname _ hnode hlink _ ih =>
    refine ih (hreaches.of_entry hname fun target htarget => ?_)
    exact hlink target (Option.some.inj (hnode.symm.trans htarget))
  | link _ hname _ hnode _ ih =>
    rw [List.cons_append] at hreaches
    have hrest := hreaches.of_link (List.append_ne_nil_of_right_ne_nil _ hmore) hname hnode
    rw [← List.append_assoc] at hrest
    exact ih hrest

/-- Names none of which is a link come to the location that they spell. -/
theorem Reaches.eq_of_unlinked {names : List Text} (h : Reaches node loc names dest)
    (hnames : ∀ name ∈ names, name ≠ "" ∧ name ≠ "." ∧ name ≠ "..")
    (hlinks : Unlinked node loc names) : dest = loc ++ names := by
  induction names generalizing loc with
  | nil =>
    cases h
    simp
  | cons name names ih =>
    have hentry := h.of_entry (hnames name (by simp)) (hlinks [name] (by simp))
    rw [ih hentry (fun other hother => hnames other (by simp [hother])) hlinks.tail]
    simp

end Names

/-- A location that the path in a text may come to. -/
def MayLead (fs : FileSystem) (here : Here) (text : Text) (loc : Location) : Prop :=
  ∃ names, namesFrom? here text = some names ∧ Reaches fs.get? [] names loc

theorem exists_walk_of_location? {purpose : Purpose} {text : Text} {target : Target}
    {loc : Location} (hlocate : fs.locate here purpose text = .ok target)
    (hloc : target.location? = some loc) :
    ∃ names, namesFrom? here text = some names ∧
      walk fs.get? purpose maxLinks [] names = .ok loc := by
  obtain ⟨gone, rfl⟩ | ⟨names, dest, hnames, hwalk, rfl⟩ := exists_walk_of_locate hlocate
  · cases hloc
  · obtain rfl : dest = loc := by
      rw [targetAt] at hloc
      split at hloc <;> exact Option.some.inj hloc
    exact ⟨names, hnames, hwalk⟩

theorem Later.mayLead (h : Later fs₀.get? fs.get?) {purpose : Purpose} {text : Text}
    {target : Target} {loc : Location} (hlocate : fs.locate here purpose text = .ok target)
    (hloc : target.location? = some loc) : fs₀.MayLead here text loc := by
  obtain ⟨names, hnames, hwalk⟩ := exists_walk_of_location? hlocate hloc
  exact ⟨names, hnames, h.reaches hwalk⟩

/-! ## Where paths end -/

/-- The location where names end, if what is missing on the way may be there. A link on the way is
followed, but one that comes last is not. -/
inductive Ends (node : Location → Option Node) : Location → List Text → Location → Prop where
  | done {loc : Location} : Ends node loc [] loc
  | stay {loc dest : Location} {name : Text} {rest : List Text} (hname : name = "" ∨ name = ".")
      (hrest : Ends node loc rest dest) : Ends node loc (name :: rest) dest
  | up {loc dest : Location} {rest : List Text} (hrest : Ends node loc.dropLast rest dest) :
      Ends node loc (".." :: rest) dest
  | down {loc dest : Location} {name : Text} {rest : List Text}
      (hname : name ≠ "" ∧ name ≠ "." ∧ name ≠ "..")
      (hlink : rest = [] ∨ ∀ target, node (loc ++ [name]) ≠ some (.link target))
      (hrest : Ends node (loc ++ [name]) rest dest) : Ends node loc (name :: rest) dest
  | link {loc dest : Location} {name : Text} {rest : List Text} {target : Text}
      (hname : name ≠ "" ∧ name ≠ "." ∧ name ≠ "..") (hlast : rest ≠ [])
      (hnode : node (loc ++ [name]) = some (.link target))
      (hrest : Ends node (if startsAtRoot target then [] else loc) (pieces target ++ rest) dest) :
      Ends node loc (name :: rest) dest

theorem Ends.reaches {loc dest : Location} {names : List Text} (h : Ends node loc names dest) :
    Reaches node loc names dest := by
  induction h with
  | done => exact .done
  | stay hname _ ih => exact .stay hname ih
  | up _ ih => exact .up ih
  | down hname hlink hrest ih =>
    obtain rfl | hlink := hlink
    · cases hrest
      exact .last hname
    · exact .down hname hlink ih
  | link hname _ hnode _ ih => exact .link hname hnode ih

/-- Names that lead to an entry end there. -/
theorem Later.ends (h : Later node₀ node) {budget : Nat} {loc dest : Location} {names : List Text}
    (hwalk : walk node .entry budget loc names = .ok dest) : Ends node₀ loc names dest := by
  fun_induction walk node .entry budget loc names with
  | case1 =>
    cases hwalk
    exact .done
  | case2 budget loc name rest hloc hname ih => exact .stay (stays_iff.1 hname) (ih hwalk)
  | case3 budget loc rest hloc hname ih => exact .up (ih hwalk)
  | case6 budget loc name hloc hname hup =>
    cases hwalk
    exact .down (plain_iff.2 ⟨hname, hup⟩) (.inl rfl) .done
  | case8 budget loc name rest hloc hname hup hslash hlong target hlink hlast =>
    cases hwalk
    obtain rfl : rest = [] := by simp_all
    exact .down (plain_iff.2 ⟨hname, hup⟩) (.inl rfl) .done
  | case10 loc name rest hloc hname hup hslash hlong target hlink hlast budget ih =>
    exact .link (plain_iff.2 ⟨hname, hup⟩) (by simpa using hlast) (h.links _ _ hlink)
      (by simpa using ih hwalk)
  | case11 budget loc name rest hloc hname hup hslash hlong n hlink hnode ih =>
    refine .down (plain_iff.2 ⟨hname, hup⟩) ?_ (ih hwalk)
    cases rest with
    | nil => exact .inl rfl
    | cons next rest =>
      right
      by_cases hdir : node (loc ++ [name]) = some .directory
      · exact h.ne_link hdir
      · simp [walk, hdir] at hwalk
  | _ => cases hwalk

section Names

variable {loc dest : Location} {name : Text} {rest : List Text}

theorem Ends.of_stay (h : Ends node loc (name :: rest) dest) (hname : name = "" ∨ name = ".") :
    Ends node loc rest dest := by
  have hplain (hname' : name ≠ "" ∧ name ≠ "." ∧ name ≠ "..") : False :=
    hname.elim hname'.1 hname'.2.1
  cases h with
  | stay _ hrest => exact hrest
  | up => exact absurd hname (by decide)
  | down hname' | link hname' => exact (hplain hname').elim

theorem Ends.of_up (h : Ends node loc (".." :: rest) dest) : Ends node loc.dropLast rest dest := by
  cases h with
  | stay hname => exact absurd hname (by decide)
  | up hrest => exact hrest
  | down hname | link hname => exact absurd rfl hname.2.2

theorem Ends.of_plain (h : Ends node loc (name :: rest) dest)
    (hname : name ≠ "" ∧ name ≠ "." ∧ name ≠ "..") :
    (rest = [] ∨ ∀ target, node (loc ++ [name]) ≠ some (.link target)) ∧
        Ends node (loc ++ [name]) rest dest ∨
      rest ≠ [] ∧ ∃ target, node (loc ++ [name]) = some (.link target) ∧
        Ends node (if startsAtRoot target then [] else loc) (pieces target ++ rest) dest := by
  cases h with
  | stay hstay => exact (hstay.elim hname.1 hname.2.1).elim
  | up => exact absurd rfl hname.2.2
  | down _ hlink hrest => exact .inl ⟨hlink, hrest⟩
  | link _ hlast hnode hrest => exact .inr ⟨hlast, _, hnode, hrest⟩

theorem Ends.eq_of_last (h : Ends node loc [name] dest)
    (hname : name ≠ "" ∧ name ≠ "." ∧ name ≠ "..") : dest = loc ++ [name] := by
  obtain ⟨-, hrest⟩ | ⟨hlast, -⟩ := h.of_plain hname
  · cases hrest
    rfl
  · exact absurd rfl hlast

end Names

/-- Unless a link stands where names end, that is where they lead. -/
theorem Later.eq_of_ends (h : Later node₀ node) {purpose : Purpose} {budget : Nat}
    {loc dest place : Location} {names : List Text} (hends : Ends node₀ loc names dest)
    (hdest : ∀ target, node dest ≠ some (.link target))
    (hwalk : walk node purpose budget loc names = .ok place) : place = dest := by
  fun_induction walk node purpose budget loc names with
  | case1 =>
    cases hwalk
    cases hends
    rfl
  | case2 budget loc name rest hloc hname ih => exact ih (hends.of_stay (stays_iff.1 hname)) hwalk
  | case3 budget loc rest hloc hname ih => exact ih hends.of_up hwalk
  | case6 budget loc name hloc hname hup =>
    cases hwalk
    exact (hends.eq_of_last (plain_iff.2 ⟨hname, hup⟩)).symm
  | case8 budget loc name rest hloc hname hup hslash hlong target hlink hlast =>
    cases hwalk
    obtain rfl : rest = [] := by simp_all
    exact (hends.eq_of_last (plain_iff.2 ⟨hname, hup⟩)).symm
  | case10 loc name rest hloc hname hup hslash hlong target hlink hlast budget ih =>
    have hlink₀ := h.links _ _ hlink
    obtain ⟨rfl | hother, hrest⟩ | ⟨-, target', hnode, hrest⟩ :=
      hends.of_plain (plain_iff.2 ⟨hname, hup⟩)
    · cases hrest
      exact absurd hlink (hdest target)
    · exact absurd hlink₀ (hother target)
    · cases hlink₀.symm.trans hnode
      exact ih (by simpa using hrest) hwalk
  | case11 budget loc name rest hloc hname hup hslash hlong n hlink hnode ih =>
    obtain ⟨-, hrest⟩ | ⟨hlast, target, hlink₀, -⟩ := hends.of_plain (plain_iff.2 ⟨hname, hup⟩)
    · exact ih hrest hwalk
    · -- a file may stand where the link was, but nothing lies behind it
      obtain ⟨next, rest, rfl⟩ := List.exists_cons_of_ne_nil hlast
      obtain hlink' | ⟨content, time, hfile⟩ := h.files _ _ hlink₀
      · exact absurd (Option.some.inj (hnode.symm.trans hlink')) (hlink target)
      · simp [walk, hfile] at hwalk
  | _ => cases hwalk

/-- The location where the path in a text ends. -/
def EndsAt (fs : FileSystem) (here : Here) (text : Text) (loc : Location) : Prop :=
  ∃ names, namesFrom? here text = some names ∧ Ends fs.get? [] names loc

theorem EndsAt.mayLead {text : Text} {loc : Location} (h : fs.EndsAt here text loc) :
    fs.MayLead here text loc := by
  obtain ⟨names, hnames, hends⟩ := h
  exact ⟨names, hnames, hends.reaches⟩

theorem Later.endsAt (h : Later fs₀.get? fs.get?) {text : Text} {target : Target} {loc : Location}
    (hlocate : fs.locate here .entry text = .ok target) (hloc : target.location? = some loc) :
    fs₀.EndsAt here text loc := by
  obtain ⟨names, hnames, hwalk⟩ := exists_walk_of_location? hlocate hloc
  exact ⟨names, hnames, h.ends hwalk⟩

/-- What is found behind a path is where it ends, unless a link is there. -/
theorem Later.eq_of_endsAt (h : Later fs₀.get? fs.get?) {purpose : Purpose} {text : Text}
    {loc place : Location} {tree : Tree} (hends : fs₀.EndsAt here text loc)
    (hloc : ∀ target, fs.get? loc ≠ some (.link target))
    (hlocate : fs.locate here purpose text = .ok (.present place tree)) : place = loc := by
  obtain ⟨names, hnames, hends⟩ := hends
  obtain ⟨names', hnames', hwalk⟩ := exists_walk_of_location? hlocate rfl
  cases hnames.symm.trans hnames'
  exact h.eq_of_ends hends hloc hwalk

/-- A file is moved to a location that its path leads to. -/
theorem exists_locate_of_moveTarget {p : Path} {loc : Location}
    (h : fs.moveTarget here p = .ok loc) :
    ∃ target, fs.locate here .entry p.text = .ok target ∧ target.location? = some loc := by
  rw [moveTarget] at h
  split at h
  · cases h
  · rename_i hlocate
    cases h
    exact ⟨_, hlocate, rfl⟩
  · cases h
  · rename_i hlocate
    split at h
    · cases h
    · split at h
      · cases h
      · cases h
        exact ⟨_, hlocate, rfl⟩

/-- A file that is replaced later is where its path ends. -/
theorem Later.replaceFile_cases (h : Later fs₀.get? fs.get?) (now : Int) (here : Here) (p : Path)
    (content : List UInt8) :
    (∃ e, (fs.replaceFile now here p content).1 = .error e ∧
      ∀ loc, (fs.replaceFile now here p content).2.get? loc = fs.get? loc) ∨
    ∃ target, (fs.replaceFile now here p content).1 = .ok () ∧
      fs₀.EndsAt here p.text target ∧ fs.get? target ≠ some .directory ∧
      ∀ loc, (fs.replaceFile now here p content).2.get? loc =
        if loc = target then some (.file content now) else fs.get? loc := by
  obtain hsame | ⟨made, place, target, hnone, hmade, hmove, hok, hget⟩ :=
    fs.replaceFile_cases now here p content
  · exact .inl hsame
  · have hlater : Later fs₀.get? made.get? := by
      refine ⟨fun loc target hlink => ?_, fun loc target hlink => ?_⟩
      · rw [hmade] at hlink
        split at hlink
        · cases hlink
        · exact h.links loc target hlink
      · rw [hmade]
        split
        · exact .inr ⟨content, now, rfl⟩
        · exact h.files loc target hlink
    have hold : fs.get? target ≠ some .directory := by
      intro hdir
      obtain ⟨-, -, hfile⟩ := get?_of_moveTarget hmove
      refine hfile ?_
      rw [hmade, if_neg, hdir]
      rintro rfl
      cases hnone.symm.trans hdir
    obtain ⟨found, hlocate, hfound⟩ := exists_locate_of_moveTarget hmove
    exact .inr ⟨target, hok, hlater.endsAt hlocate hfound, hold, hget⟩

end FileSystem
end TagsFile
