import Mathlib
import TagsFile.FileSystem.Follow

/-!
# Walks along names

Where a path leads is told by the nodes of a file system alone. This view of `follow` is the one in
which file systems are compared: it does not see what lies beside the way.

## Main definitions

* `FileSystem.walk`: the location that names lead to.
* `FileSystem.targetAt`: what there is at a location.
* `FileSystem.Keeps`: changes that leave all directories and links where they are.
-/

namespace TagsFile

theorem Tree.get?_append (t : Tree) (loc rest : Location) :
    t.get? (loc ++ rest) = (t.get? loc).bind (·.get? rest) := by
  induction loc generalizing t with
  | nil => rfl
  | cons name loc ih => simp [get?, ih, Option.bind_assoc]

namespace FileSystem

/-! ## Nodes -/

theorem get?_eq_map (fs : FileSystem) (loc : Location) :
    fs.get? loc = (fs.tree? loc).map Tree.node := rfl

theorem exists_tree?_eq_some {fs : FileSystem} {loc : Location} (h : fs.get? loc ≠ none) :
    ∃ tree, fs.tree? loc = some tree := by
  rw [get?_eq_map] at h
  cases htree : fs.tree? loc with
  | none => simp [htree] at h
  | some tree => exact ⟨tree, rfl⟩

theorem tree?_concat (fs : FileSystem) (loc : Location) (name : Text) :
    fs.tree? (loc ++ [name]) = (fs.tree? loc).bind (·.entries.get? name) := by
  rw [tree?, Tree.get?_append, tree?]
  cases fs.root.get? loc <;> simp [Tree.get?]

/-- What has something in it is a directory. -/
theorem get?_eq_directory_of_concat {fs : FileSystem} {loc : Location} {name : Text}
    (h : fs.get? (loc ++ [name]) ≠ none) : fs.get? loc = some .directory := by
  rw [get?_eq_map, tree?_concat] at h
  rw [get?_eq_map]
  cases htree : fs.tree? loc with
  | none => simp [htree] at h
  | some t => cases t <;> simp_all [Tree.entries, Tree.node]

theorem get?_eq_directory_of_append {fs : FileSystem} {loc rest : Location} (hrest : rest ≠ [])
    (h : fs.get? (loc ++ rest) ≠ none) : fs.get? loc = some .directory := by
  induction rest generalizing loc with
  | nil => exact absurd rfl hrest
  | cons name rest ih =>
    by_cases hempty : rest = []
    · subst hempty
      exact get?_eq_directory_of_concat h
    · rw [← List.singleton_append, ← List.append_assoc] at h
      refine get?_eq_directory_of_concat (show fs.get? (loc ++ [name]) ≠ none from ?_)
      simp [ih hempty h]

/-- What is above a directory is a directory. -/
theorem get?_eq_directory_of_front {fs : FileSystem} {loc below : Location} (hloc : loc <+: below)
    (h : fs.get? below = some .directory) : fs.get? loc = some .directory := by
  obtain ⟨rest, rfl⟩ := hloc
  by_cases hrest : rest = []
  · simpa [hrest] using h
  · exact get?_eq_directory_of_append hrest (by simp [h])

/-! ## Following names -/

/-- Where names lead from a location, as far as the nodes tell. -/
def walk (node : Location → Option Node) (purpose : Purpose) (budget : Nat) (loc : Location)
    (names : List Text) : Except SystemError Location :=
  match names with
  | [] => .ok loc
  | name :: rest =>
    if node loc = some .directory then
      if name = "" || name = "." then walk node purpose budget loc rest
      else if name = ".." then walk node purpose budget loc.dropLast rest
      else if purpose = .output && onlySlashes rest then .error .isDirectory
      else if maxName < name.fileLength then .error .nameTooLong
      else
        match node (loc ++ [name]) with
        | none => if rest = [] then .ok (loc ++ [name]) else .error .noEntry
        | some (.link target) =>
          if rest = [] && purpose = .entry then .ok (loc ++ [name])
          else
            match budget with
            | 0 => .error .tooManyLinks
            | budget + 1 =>
              walk node purpose budget (if startsAtRoot target then [] else loc)
                (pieces target ++ rest)
        | some _ => walk node purpose budget (loc ++ [name]) rest
    else .error .notDirectory
termination_by (budget, names.length)

theorem stays_iff {name : Text} :
    (decide (name = "") || decide (name = ".")) = true ↔ name = "" ∨ name = "." := by
  rw [Bool.or_eq_true, decide_eq_true_iff, decide_eq_true_iff]

theorem plain_iff {name : Text} : name ≠ "" ∧ name ≠ "." ∧ name ≠ ".." ↔
    ¬(decide (name = "") || decide (name = ".")) = true ∧ ¬name = ".." := by
  rw [stays_iff, not_or, and_assoc]

/-- What there is at a location whose directory is there. -/
def targetAt (fs : FileSystem) (loc : Location) : Target :=
  match fs.tree? loc with
  | some tree => .present loc tree
  | none => .vacant loc

theorem targetAt_eq_vacant {fs : FileSystem} {loc : Location} (h : fs.get? loc = none) :
    fs.targetAt loc = .vacant loc := by
  have htree : fs.tree? loc = none := Option.map_eq_none_iff.1 h
  rw [targetAt, htree]

theorem targetAt_eq_present {fs : FileSystem} {loc : Location} {n : Node}
    (h : fs.get? loc = some n) :
    ∃ tree, tree.node = n ∧ fs.tree? loc = some tree ∧ fs.targetAt loc = .present loc tree := by
  obtain ⟨tree, htree⟩ := exists_tree?_eq_some (show fs.get? loc ≠ none by simp [h])
  refine ⟨tree, ?_, htree, by rw [targetAt, htree]⟩
  simpa [get?_eq_map, htree] using h

/-- Whether the directories of a place are those of the file system. -/
def HasPlace (fs : FileSystem) : (above : List (Text × Tree)) → (tree : Tree) → Prop
  | [], tree => tree = fs.root
  | (name, parent) :: above, tree => parent.entries.get? name = some tree ∧ fs.HasPlace above parent

theorem HasPlace.tree? {fs : FileSystem} {above : List (Text × Tree)} {tree : Tree}
    (h : fs.HasPlace above tree) : fs.tree? (Place.location ⟨tree, above⟩) = some tree := by
  induction above generalizing tree with
  | nil =>
    obtain rfl : tree = fs.root := h
    rfl
  | cons pair above ih =>
    obtain ⟨name, parent⟩ := pair
    obtain ⟨hentry, hparent⟩ := h
    have hloc : Place.location ⟨tree, (name, parent) :: above⟩ =
        Place.location ⟨parent, above⟩ ++ [name] := by
      simp [Place.location]
    rw [hloc, tree?_concat, ih hparent]
    exact hentry

theorem HasPlace.up {fs : FileSystem} {place : Place} (h : fs.HasPlace place.above place.tree) :
    fs.HasPlace place.up.above place.up.tree := by
  obtain ⟨tree, above⟩ := place
  cases above with
  | nil => exact h
  | cons pair above => exact h.2

theorem location_down (place : Place) (name : Text) (entry : Tree) :
    (place.down name entry).location = place.location ++ [name] := by
  simp [Place.down, Place.location]

theorem location_up (place : Place) : place.up.location = place.location.dropLast := by
  obtain ⟨tree, above⟩ := place
  cases above <;> simp [Place.up, Place.location]

/-- Following names comes to the location that the nodes tell. -/
theorem follow_eq_walk {fs : FileSystem} (purpose : Purpose) (budget : Nat) {place : Place}
    (h : fs.HasPlace place.above place.tree) (names : List Text) :
    fs.follow purpose budget place names =
      (walk fs.get? purpose budget place.location names).map fs.targetAt := by
  have hdir {place : Place} {time : Int} {entries : List (Text × Tree)}
      (h : fs.HasPlace place.above place.tree) (htree : place.tree = .directory time entries) :
      fs.get? place.location = some .directory := by
    rw [get?_eq_map, h.tree?, htree]
    rfl
  have hentry {place : Place} {time : Int} {entries : List (Text × Tree)}
      (h : fs.HasPlace place.above place.tree) (htree : place.tree = .directory time entries)
      (name : Text) : fs.tree? (place.location ++ [name]) = Table.get? entries name := by
    rw [tree?_concat, h.tree?, htree]
    rfl
  fun_induction follow fs purpose budget place names with
  | case1 budget place => rw [walk, Except.map, targetAt, h.tree?]
  | case2 budget place name rest time entries htree hname ih =>
    rw [walk, if_pos (hdir h htree), if_pos hname, ih h]
  | case3 budget place rest time entries htree hname ih =>
    rw [walk, if_pos (hdir h htree), if_neg hname, if_pos rfl, ih h.up, location_up]
  | case4 budget place name rest time entries htree hname hup hslash =>
    rw [walk, if_pos (hdir h htree), if_neg hname, if_neg hup, if_pos hslash]
    rfl
  | case5 budget place name rest time entries htree hname hup hslash hlong =>
    rw [walk, if_pos (hdir h htree), if_neg hname, if_neg hup, if_neg hslash, if_pos hlong]
    rfl
  | case6 budget place name time entries htree hname hup hlong hnone hslash =>
    have hat := hentry h htree name
    rw [walk, if_pos (hdir h htree), if_neg hname, if_neg hup, if_neg hslash, if_neg hlong]
    simp [get?_eq_map, hat, hnone, Except.map, targetAt]
  | case7 budget place name rest time entries htree hname hup hslash hlong hnone hrest =>
    have hat := hentry h htree name
    rw [walk, if_pos (hdir h htree), if_neg hname, if_neg hup, if_neg hslash, if_neg hlong]
    simp [get?_eq_map, hat, hnone, Except.map, hrest]
  | case8 budget place name rest time entries htree hname hup hslash hlong target hlink hlast =>
    have hat := hentry h htree name
    rw [walk, if_pos (hdir h htree), if_neg hname, if_neg hup, if_neg hslash, if_neg hlong]
    simp [get?_eq_map, hat, hlink, Except.map, targetAt, Tree.node, hlast]
  | case9 place name rest time entries htree hname hup hslash hlong target hlink hlast =>
    have hat := hentry h htree name
    rw [walk, if_pos (hdir h htree), if_neg hname, if_neg hup, if_neg hslash, if_neg hlong]
    simp [get?_eq_map, hat, hlink, Except.map, Tree.node, hlast]
  | case10 place name rest time entries htree hname hup hslash hlong target hlink hlast budget ih =>
    have hat := hentry h htree name
    have hnode : fs.get? (place.location ++ [name]) = some (.link target) := by
      rw [get?_eq_map, hat, hlink]
      rfl
    rw [walk, if_pos (hdir h htree), if_neg hname, if_neg hup, if_neg hslash, if_neg hlong, hnode]
    simp only [hlast]
    by_cases hroot : startsAtRoot target
    · simp only [hroot] at ih ⊢
      exact ih rfl
    · simp only [hroot] at ih ⊢
      exact ih h
  | case11 budget place name rest time entries htree hname hup hslash hlong entry hlink hat ih =>
    have hdown : fs.HasPlace (place.down name entry).above (place.down name entry).tree := by
      refine ⟨?_, h⟩
      rw [htree]
      exact hat
    have hnode : fs.get? (place.location ++ [name]) = some entry.node := by
      rw [get?_eq_map, hentry h htree, hat]
      rfl
    rw [walk, if_pos (hdir h htree), if_neg hname, if_neg hup, if_neg hslash, if_neg hlong, hnode,
      ih hdown, location_down]
    cases entry with
    | link target => exact absurd rfl (hlink target)
    | file | directory => rfl
  | case12 budget place name rest hdirectory =>
    have hnode : fs.get? place.location ≠ some .directory := by
      rw [get?_eq_map, h.tree?]
      cases htree : place.tree with
      | directory time entries => exact absurd htree (hdirectory time entries)
      | file | link => simp [Tree.node]
    rw [walk, if_neg hnode]
    rfl

/-- Why names lead nowhere. -/
theorem meansAbsent_of_walk {node : Location → Option Node} {purpose : Purpose} {budget : Nat}
    {loc : Location} {names : List Text} {e : SystemError} (hpurpose : purpose ≠ .output)
    (h : walk node purpose budget loc names = .error e) :
    e = .nameTooLong ∨ (FileError.system e).meansAbsent = true := by
  fun_induction walk node purpose budget loc names with
  | case1 => cases h
  | case2 budget loc name rest hloc hname ih => exact ih h
  | case3 budget loc rest hloc hname ih => exact ih h
  | case4 budget loc name rest hloc hname hup hslash => simp [hpurpose] at hslash
  | case5 =>
    cases h
    exact .inl rfl
  | case6 => cases h
  | case7 | case9 | case12 =>
    cases h
    exact .inr rfl
  | case8 => cases h
  | case10 loc name rest hloc hname hup hslash hlong target hlink hlast budget ih => exact ih h
  | case11 budget loc name rest hloc hname hup hslash hlong n hlink hnode ih => exact ih h

/-! ## Ways -/

variable {node node' : Location → Option Node} {purpose : Purpose} {budget budget' : Nat}
  {loc dest : Location} {names more : List Text}

/-- Names that lead from one location to another, with the links that may be followed before and
after. -/
inductive Leads (node : Location → Option Node) :
    Nat → Location → List Text → Nat → Location → Prop where
  | done {budget : Nat} {loc : Location} : Leads node budget loc [] budget loc
  | stay {budget budget' : Nat} {loc dest : Location} {name : Text} {rest : List Text}
      (hloc : node loc = some .directory) (hname : name = "" ∨ name = ".")
      (hrest : Leads node budget loc rest budget' dest) :
      Leads node budget loc (name :: rest) budget' dest
  | up {budget budget' : Nat} {loc dest : Location} {rest : List Text}
      (hloc : node loc = some .directory)
      (hrest : Leads node budget loc.dropLast rest budget' dest) :
      Leads node budget loc (".." :: rest) budget' dest
  | down {budget budget' : Nat} {loc dest : Location} {name : Text} {rest : List Text} {n : Node}
      (hloc : node loc = some .directory) (hname : name ≠ "" ∧ name ≠ "." ∧ name ≠ "..")
      (hshort : name.fileLength ≤ maxName) (hnode : node (loc ++ [name]) = some n)
      (hlink : ∀ target, n ≠ .link target)
      (hrest : Leads node budget (loc ++ [name]) rest budget' dest) :
      Leads node budget loc (name :: rest) budget' dest
  | link {budget budget' : Nat} {loc dest : Location} {name : Text} {rest : List Text}
      {target : Text} (hloc : node loc = some .directory)
      (hname : name ≠ "" ∧ name ≠ "." ∧ name ≠ "..") (hshort : name.fileLength ≤ maxName)
      (hnode : node (loc ++ [name]) = some (.link target))
      (hrest : Leads node budget (if startsAtRoot target then [] else loc) (pieces target ++ rest)
        budget' dest) :
      Leads node (budget + 1) loc (name :: rest) budget' dest

/-- A walk to something that is there follows a way. -/
theorem exists_leads (h : walk node .target budget loc names = .ok dest)
    (hdest : node dest ≠ none) :
    ∃ budget', Leads node budget loc names budget' dest := by
  fun_induction walk node .target budget loc names with
  | case1 budget loc =>
    cases h
    exact ⟨budget, .done⟩
  | case2 budget loc name rest hloc hname ih =>
    obtain ⟨budget', ih⟩ := ih h
    exact ⟨budget', .stay hloc (stays_iff.1 hname) ih⟩
  | case3 budget loc rest hloc hname ih =>
    obtain ⟨budget', ih⟩ := ih h
    exact ⟨budget', .up hloc ih⟩
  | case6 budget loc name hloc hname hup hlong hnone =>
    cases h
    exact absurd hnone hdest
  | case8 budget loc name rest hloc hname hup hslash hlong target hlink hlast => simp at hlast
  | case10 loc name rest hloc hname hup hslash hlong target hlink hlast budget ih =>
    obtain ⟨budget', ih⟩ := ih h
    exact ⟨budget', .link hloc (plain_iff.2 ⟨hname, hup⟩) (by omega) hlink (by simpa using ih)⟩
  | case11 budget loc name rest hloc hname hup hslash hlong n hlink hnode ih =>
    obtain ⟨budget', ih⟩ := ih h
    exact ⟨budget', .down hloc (plain_iff.2 ⟨hname, hup⟩) (by omega) hnode hlink ih⟩
  | _ => cases h

/-- A walk at a name that is short enough. -/
theorem walk_cons {name : Text} {rest : List Text} (hloc : node loc = some .directory)
    (hname : name ≠ "" ∧ name ≠ "." ∧ name ≠ "..") (hshort : name.fileLength ≤ maxName)
    (hpurpose : purpose ≠ .output) : walk node purpose budget loc (name :: rest) =
      match node (loc ++ [name]) with
      | none => if rest = [] then .ok (loc ++ [name]) else .error .noEntry
      | some (.link target) =>
        if rest = [] && purpose = .entry then .ok (loc ++ [name])
        else
          match budget with
          | 0 => .error .tooManyLinks
          | budget + 1 =>
            walk node purpose budget (if startsAtRoot target then [] else loc)
              (pieces target ++ rest)
      | some _ => walk node purpose budget (loc ++ [name]) rest := by
  rw [walk, if_pos hloc, if_neg (plain_iff.1 hname).1, if_neg hname.2.2,
    if_neg (by simp [hpurpose]),
    if_neg (by omega)]

theorem walk_cons_long {name : Text} {rest : List Text} (hloc : node loc = some .directory)
    (hname : name ≠ "" ∧ name ≠ "." ∧ name ≠ "..") (hlong : maxName < name.fileLength)
    (hpurpose : purpose ≠ .output) :
    walk node purpose budget loc (name :: rest) = .error .nameTooLong := by
  rw [walk, if_pos hloc, if_neg (plain_iff.1 hname).1, if_neg hname.2.2,
    if_neg (by simp [hpurpose]),
    if_pos hlong]

/-- A walk goes on from where the way so far has led, if names follow or a link that comes last is
followed too. -/
theorem Leads.walk_append (h : Leads node budget loc names budget' dest)
    (hmore : more ≠ [] ∨ purpose ≠ .entry) (hpurpose : purpose ≠ .output) :
    walk node purpose budget loc (names ++ more) = walk node purpose budget' dest more := by
  induction h with
  | done => rfl
  | stay hloc hname hrest ih =>
    rw [List.cons_append, walk, if_pos hloc, if_pos (stays_iff.2 hname), ih]
  | up hloc hrest ih =>
    rw [List.cons_append, walk, if_pos hloc, if_neg (by decide), if_pos rfl, ih]
  | @down _ _ _ _ _ _ n hloc hname hshort hnode hlink hrest ih =>
    rw [List.cons_append, walk_cons hloc hname hshort hpurpose, hnode, ← ih]
    cases n with
    | link target => exact absurd rfl (hlink target)
    | file | directory => rfl
  | link hloc hname hshort hnode hrest ih =>
    rw [List.cons_append, walk_cons hloc hname hshort hpurpose, hnode, ← ih]
    obtain hmore | hmore := hmore <;> simp [hmore]

theorem Leads.trans {budget₁ : Nat} {between : Location}
    (h : Leads node budget loc names budget₁ between)
    (h' : Leads node budget₁ between more budget' dest) :
    Leads node budget loc (names ++ more) budget' dest := by
  induction h with
  | done => exact h'
  | stay hloc hname _ ih => exact .stay hloc hname (ih h')
  | up hloc _ ih => exact .up hloc (ih h')
  | down hloc hname hshort hnode hlink _ ih => exact .down hloc hname hshort hnode hlink (ih h')
  | link hloc hname hshort hnode _ ih =>
    exact .link hloc hname hshort hnode (by simpa using ih h')

/-- A way along some names and then along others comes through a place between them. -/
theorem Leads.split {whole : List Text} (h : Leads node budget loc whole budget' dest)
    (hwhole : whole = names ++ more) :
    ∃ budget₁ between, Leads node budget loc names budget₁ between ∧
      Leads node budget₁ between more budget' dest := by
  induction h generalizing names with
  | @done budget loc =>
    obtain ⟨rfl, rfl⟩ : names = [] ∧ more = [] := by simpa using hwhole.symm
    exact ⟨budget, loc, .done, .done⟩
  | @stay budget _ loc _ _ _ hloc hname hrest ih =>
    cases names with
    | nil =>
      obtain rfl := hwhole
      exact ⟨budget, loc, .done, .stay hloc hname hrest⟩
    | cons first names =>
      obtain ⟨rfl, rfl⟩ := List.cons.inj hwhole
      obtain ⟨budget₁, between, hfront, hback⟩ := ih rfl
      exact ⟨budget₁, between, .stay hloc hname hfront, hback⟩
  | @up budget _ loc _ _ hloc hrest ih =>
    cases names with
    | nil =>
      obtain rfl := hwhole
      exact ⟨budget, loc, .done, .up hloc hrest⟩
    | cons first names =>
      obtain ⟨rfl, rfl⟩ := List.cons.inj hwhole
      obtain ⟨budget₁, between, hfront, hback⟩ := ih rfl
      exact ⟨budget₁, between, .up hloc hfront, hback⟩
  | @down budget _ loc _ _ _ _ hloc hname hshort hnode hlink hrest ih =>
    cases names with
    | nil =>
      obtain rfl := hwhole
      exact ⟨budget, loc, .done, .down hloc hname hshort hnode hlink hrest⟩
    | cons first names =>
      obtain ⟨rfl, rfl⟩ := List.cons.inj hwhole
      obtain ⟨budget₁, between, hfront, hback⟩ := ih rfl
      exact ⟨budget₁, between, .down hloc hname hshort hnode hlink hfront, hback⟩
  | @link budget _ loc _ _ _ _ hloc hname hshort hnode hrest ih =>
    cases names with
    | nil =>
      obtain rfl := hwhole
      exact ⟨budget + 1, loc, .done, .link hloc hname hshort hnode hrest⟩
    | cons first names =>
      obtain ⟨rfl, rfl⟩ := List.cons.inj hwhole
      obtain ⟨budget₁, between, hfront, hback⟩ := ih (List.append_assoc ..).symm
      exact ⟨budget₁, between, .link hloc hname hshort hnode hfront, hback⟩

/-- A name that leads nowhere. -/
theorem Leads.of_stay {name : Text} (h : Leads node budget loc (name :: names) budget' dest)
    (hname : name = "" ∨ name = ".") : Leads node budget loc names budget' dest := by
  cases h with
  | stay _ _ hrest => exact hrest
  | up => exact absurd hname (by decide)
  | down _ hproper | link _ hproper => exact absurd hname (not_or.2 ⟨hproper.1, hproper.2.1⟩)

theorem Leads.eq_of_stay {name : Text} (h : Leads node budget loc [name] budget' dest)
    (hname : name = "" ∨ name = ".") : budget = budget' ∧ loc = dest := by
  cases h.of_stay hname
  exact ⟨rfl, rfl⟩

theorem Leads.of_up (h : Leads node budget loc (".." :: names) budget' dest) :
    Leads node budget loc.dropLast names budget' dest := by
  cases h with
  | stay _ hname => exact absurd hname (by decide)
  | up _ hrest => exact hrest
  | down _ hname | link _ hname => exact absurd rfl hname.2.2

/-- A name leads to its entry, where that is no link. -/
theorem Leads.of_entry {name : Text} {n : Node}
    (h : Leads node budget loc (name :: names) budget' dest)
    (hname : name ≠ "" ∧ name ≠ "." ∧ name ≠ "..") (hnode : node (loc ++ [name]) = some n)
    (hlink : ∀ target, n ≠ .link target) :
    Leads node budget (loc ++ [name]) names budget' dest := by
  cases h with
  | stay _ hstay => exact absurd hstay (not_or.2 ⟨hname.1, hname.2.1⟩)
  | up => exact absurd rfl hname.2.2
  | down _ _ _ _ _ hrest => exact hrest
  | link _ _ _ htarget =>
    cases hnode.symm.trans htarget
    exact absurd rfl (hlink _)

/-- The name of a link leads along its target. -/
theorem Leads.of_link {name target : Text} (h : Leads node budget loc (name :: names) budget' dest)
    (hname : name ≠ "" ∧ name ≠ "." ∧ name ≠ "..")
    (hnode : node (loc ++ [name]) = some (.link target)) :
    ∃ budget₁ budget₂ between,
      Leads node budget₁ (if startsAtRoot target then [] else loc) (pieces target) budget₂ between ∧
      Leads node budget₂ between names budget' dest := by
  cases h with
  | stay _ hstay => exact absurd hstay (not_or.2 ⟨hname.1, hname.2.1⟩)
  | up => exact absurd rfl hname.2.2
  | down _ _ _ hentry hlink =>
    cases hnode.symm.trans hentry
    exact absurd rfl (hlink target)
  | link _ _ _ htarget hrest =>
    cases hnode.symm.trans htarget
    obtain ⟨budget₂, between, hfront, hback⟩ := hrest.split rfl
    exact ⟨_, budget₂, between, hfront, hback⟩

/-- The end of a way is what its names lead to. -/
theorem Leads.walk_eq (h : Leads node budget loc names budget' dest) :
    walk node .target budget loc names = .ok dest := by
  rw [← List.append_nil names, h.walk_append (.inr (by decide)) (by decide), walk]

/-- For an entry, a link at the end of a way is not followed, but something is there. -/
theorem Leads.exists_entry (h : Leads node budget loc names budget' dest)
    (hdest : node dest ≠ none) :
    ∃ entry, walk node .entry budget loc names = .ok entry ∧ node entry ≠ none := by
  induction h with
  | @done _ loc => exact ⟨loc, by rw [walk], hdest⟩
  | stay hloc hname hrest ih =>
    rw [walk, if_pos hloc, if_pos (stays_iff.2 hname)]
    exact ih hdest
  | up hloc hrest ih =>
    rw [walk, if_pos hloc, if_neg (by decide), if_pos rfl]
    exact ih hdest
  | @down _ _ _ _ _ _ n hloc hname hshort hnode hlink hrest ih =>
    rw [walk_cons hloc hname hshort (by decide), hnode]
    cases n with
    | link target => exact absurd rfl (hlink target)
    | file | directory => exact ih hdest
  | @link _ _ loc _ name rest target hloc hname hshort hnode hrest ih =>
    rw [walk_cons hloc hname hshort (by decide), hnode]
    by_cases hlast : rest = []
    · exact ⟨loc ++ [name], by simp [hlast], by simp [hnode]⟩
    · simpa [hlast] using ih hdest

/-! ## Changes beside a way -/

/-- A change that leaves all directories and links where they are. -/
def Keeps (node node' : Location → Option Node) : Prop :=
  ∀ loc, (node loc = some .directory → node' loc = some .directory) ∧
    ∀ target, node loc = some (.link target) → node' loc = some (.link target)

/-- A way to a directory stays. -/
theorem Leads.keep (h : Leads node budget loc names budget' dest) (hk : Keeps node node')
    (hdest : node dest = some .directory) : Leads node' budget loc names budget' dest := by
  induction h with
  | done => exact .done
  | stay hloc hname hrest ih => exact .stay ((hk _).1 hloc) hname (ih hdest)
  | up hloc hrest ih => exact .up ((hk _).1 hloc) (ih hdest)
  | @down _ _ _ _ _ _ n hloc hname hshort hnode hlink hrest ih =>
    -- the node below is a directory too, since the way goes on from it or ends there
    obtain rfl : n = .directory := by cases hrest <;> simp_all
    exact .down ((hk _).1 hloc) hname hshort ((hk _).1 hnode) hlink (ih hdest)
  | link hloc hname hshort hnode hrest ih =>
    exact .link ((hk _).1 hloc) hname hshort ((hk _).2 _ hnode) (ih hdest)

/-- Whether two file systems differ in the contents and the times of files only. -/
def Alike (node node' : Location → Option Node) : Prop :=
  ∀ loc, node' loc = node loc ∨
    ∃ content time content' time', node loc = some (.file content time) ∧
      node' loc = some (.file content' time')

/-- Names lead to the same location whatever is in the files. -/
theorem Alike.walk_eq (h : Alike node node') :
    walk node' purpose budget loc names = walk node purpose budget loc names := by
  have hdir (loc : Location) : node' loc = some .directory ↔ node loc = some .directory := by
    obtain heq | ⟨_, _, _, _, heq, heq'⟩ := h loc
    · rw [heq]
    · simp [heq, heq']
  fun_induction walk node purpose budget loc names with
  | case1 => rw [walk]
  | case2 budget loc name rest hloc hname ih =>
    rw [walk, if_pos ((hdir _).2 hloc), if_pos hname, ih]
  | case3 budget loc rest hloc hname ih =>
    rw [walk, if_pos ((hdir _).2 hloc), if_neg hname, if_pos rfl, ih]
  | case4 budget loc name rest hloc hname hup hslash =>
    rw [walk, if_pos ((hdir _).2 hloc), if_neg hname, if_neg hup, if_pos hslash]
  | case5 budget loc name rest hloc hname hup hslash hlong =>
    rw [walk, if_pos ((hdir _).2 hloc), if_neg hname, if_neg hup, if_neg hslash, if_pos hlong]
  | case6 budget loc name hloc hname hup hlong hnone hslash =>
    rw [walk, if_pos ((hdir _).2 hloc), if_neg hname, if_neg hup, if_neg hslash, if_neg hlong]
    grind [Alike]
  | case7 budget loc name rest hloc hname hup hslash hlong hnone hrest =>
    rw [walk, if_pos ((hdir _).2 hloc), if_neg hname, if_neg hup, if_neg hslash, if_neg hlong]
    grind [Alike]
  | case8 budget loc name rest hloc hname hup hslash hlong target hlink hlast =>
    rw [walk, if_pos ((hdir _).2 hloc), if_neg hname, if_neg hup, if_neg hslash, if_neg hlong]
    grind [Alike]
  | case9 loc name rest hloc hname hup hslash hlong target hlink hlast =>
    rw [walk, if_pos ((hdir _).2 hloc), if_neg hname, if_neg hup, if_neg hslash, if_neg hlong]
    grind [Alike]
  | case10 loc name rest hloc hname hup hslash hlong target hlink hlast budget ih =>
    rw [walk, if_pos ((hdir _).2 hloc), if_neg hname, if_neg hup, if_neg hslash, if_neg hlong]
    grind [Alike]
  | case11 budget loc name rest hloc hname hup hslash hlong n hlink hnode ih =>
    rw [walk, if_pos ((hdir _).2 hloc), if_neg hname, if_neg hup, if_neg hslash, if_neg hlong]
    grind [Alike]
  | case12 budget loc name rest hloc => rw [walk, if_neg (fun hd => hloc ((hdir _).1 hd))]

/-! ## Plain names -/

/-- Whether no link stands on the way along some names. -/
def Unlinked (node : Location → Option Node) (loc : Location) (names : List Text) : Prop :=
  ∀ front, front <+: names → ∀ target, node (loc ++ front) ≠ some (.link target)

theorem Unlinked.tail {name : Text} {rest : List Text} (h : Unlinked node loc (name :: rest)) :
    Unlinked node (loc ++ [name]) rest := by
  intro front hfront target
  simpa using h (name :: front) (List.cons_prefix_cons.2 ⟨rfl, hfront⟩) target

theorem forall_proper_prefix_cons {P : Location → Prop} {name : Text} {rest : List Text} :
    (∀ front, front <+: name :: rest → front ≠ name :: rest → P (loc ++ front)) ↔
      P loc ∧ ∀ front, front <+: rest → front ≠ rest → P (loc ++ [name] ++ front) := by
  constructor
  · intro h
    refine ⟨by simpa using h [] List.nil_prefix (by simp), fun front hfront hne => ?_⟩
    simpa using h (name :: front) (List.cons_prefix_cons.2 ⟨rfl, hfront⟩) (by simpa using hne)
  · rintro ⟨hloc, hrest⟩ front hfront hne
    cases front with
    | nil => simpa using hloc
    | cons first front =>
      obtain ⟨rfl, hfront'⟩ := List.cons_prefix_cons.1 hfront
      simpa using hrest front hfront' (by simpa using hne)

/-- Where no link stands on the way, plain names lead to the location that they spell, as long as
each of them is short and all before the last are directories. -/
theorem walk_eq_ok_iff (hpurpose : purpose ≠ .output)
    (hnames : ∀ name ∈ names, name ≠ "" ∧ name ≠ "." ∧ name ≠ "..")
    (hlinks : Unlinked node loc names) :
    walk node purpose budget loc names = .ok dest ↔
      dest = loc ++ names ∧ (∀ name ∈ names, name.fileLength ≤ maxName) ∧
        ∀ front, front <+: names → front ≠ names → node (loc ++ front) = some .directory := by
  induction names generalizing loc with
  | nil =>
    rw [walk]
    simp +contextual [eq_comm]
  | cons name rest ih =>
    have ih := @ih (loc ++ [name]) (fun n hn => hnames n (by simp [hn])) hlinks.tail
    rw [forall_proper_prefix_cons (P := fun loc => node loc = some .directory)]
    by_cases hloc : node loc = some .directory
    · by_cases hshort : name.fileLength ≤ maxName
      · rw [walk_cons hloc (hnames name (by simp)) hshort hpurpose]
        cases hnode : node (loc ++ [name]) with
        | none =>
          cases rest with
          | nil => simp +contextual [hloc, hshort, eq_comm]
          | cons next rest =>
            have hfirst : ¬∀ front, front <+: next :: rest → front ≠ next :: rest →
                node (loc ++ [name] ++ front) = some .directory :=
              fun h => by simpa [hnode] using h [] List.nil_prefix (by simp)
            simp only [hfirst, and_false, iff_false]
            simp
        | some n =>
          cases n with
          | link target =>
            exact absurd hnode (by simpa using hlinks [name] (by simp) target)
          | file | directory => simp [ih, hloc, hshort]
      · rw [walk_cons_long hloc (hnames name (by simp)) (by omega) hpurpose]
        simp [hshort]
    · rw [walk, if_neg hloc]
      simp [hloc]

/-- A walk only goes on from a directory. -/
theorem directory_of_walk {name : Text}
    (h : walk node purpose budget loc (name :: names) = .ok dest) :
    node loc = some .directory := by
  rw [walk] at h
  split at h
  · assumption
  · cases h

theorem short_of_walk {name : Text} (hname : name ≠ "" ∧ name ≠ "." ∧ name ≠ "..")
    (hpurpose : purpose ≠ .output) (h : walk node purpose budget loc (name :: names) = .ok dest) :
    name.fileLength ≤ maxName := by
  apply Nat.not_lt.1
  intro hlong
  rw [walk_cons_long (directory_of_walk h) hname hlong hpurpose] at h
  cases h

/-- A walk along some names and then along others comes through a place between them. -/
theorem exists_leads_of_walk_append {budget : Nat} {loc : Location} {names : List Text}
    (hpurpose : purpose ≠ .output) (hmore : more ≠ [])
    (h : walk node purpose budget loc (names ++ more) = .ok dest) :
    ∃ budget' between, Leads node budget loc names budget' between ∧
      walk node purpose budget' between more = .ok dest := by
  match names with
  | [] => exact ⟨budget, loc, .done, h⟩
  | name :: rest =>
    rw [List.cons_append] at h
    have hloc := directory_of_walk h
    by_cases hstay : name = "" ∨ name = "."
    · rw [walk, if_pos hloc, if_pos (stays_iff.2 hstay)] at h
      obtain ⟨budget', between, hleads, hwalk⟩ := exists_leads_of_walk_append hpurpose hmore h
      exact ⟨budget', between, .stay hloc hstay hleads, hwalk⟩
    by_cases hup : name = ".."
    · subst hup
      rw [walk, if_pos hloc, if_neg (by decide), if_pos rfl] at h
      obtain ⟨budget', between, hleads, hwalk⟩ := exists_leads_of_walk_append hpurpose hmore h
      exact ⟨budget', between, .up hloc hleads, hwalk⟩
    have hname : name ≠ "" ∧ name ≠ "." ∧ name ≠ ".." :=
      ⟨fun heq => hstay (.inl heq), fun heq => hstay (.inr heq), hup⟩
    have hshort := short_of_walk hname hpurpose h
    rw [walk_cons hloc hname hshort hpurpose] at h
    split at h
    · simp [hmore] at h
    · rename_i target hlink
      simp only [List.append_eq_nil_iff, hmore, and_false, decide_false, Bool.false_and,
        Bool.false_eq_true, if_false] at h
      cases budget with
      | zero => cases h
      | succ budget =>
        rw [← List.append_assoc] at h
        obtain ⟨budget', between, hleads, hwalk⟩ := exists_leads_of_walk_append hpurpose hmore h
        exact ⟨budget', between, .link hloc hname hshort hlink hleads, hwalk⟩
    · rename_i n hlink hnode
      obtain ⟨budget', between, hleads, hwalk⟩ := exists_leads_of_walk_append hpurpose hmore h
      exact ⟨budget', between, .down hloc hname hshort hnode hlink hleads, hwalk⟩
termination_by (budget, names.length)

/-- An entry of a directory is found by its name. -/
theorem eq_of_walk_entry {name : Text} (hname : name ≠ "" ∧ name ≠ "." ∧ name ≠ "..")
    (h : walk node .entry budget loc [name] = .ok dest) :
    node loc = some .directory ∧ name.fileLength ≤ maxName ∧ dest = loc ++ [name] := by
  have hloc := directory_of_walk h
  have hshort := short_of_walk hname (by decide) h
  refine ⟨hloc, hshort, ?_⟩
  rw [walk_cons hloc hname hshort (by decide)] at h
  split at h
  · simpa using h.symm
  · simpa using h.symm
  · simpa [walk] using h.symm

/-- If each front of some names comes to something else than a link, something is where they say. -/
theorem exists_plain_of_walks (hnames : ∀ name ∈ names, name ≠ "" ∧ name ≠ "." ∧ name ≠ "..")
    (hloc : node loc = some .directory)
    (h : ∀ front, front <+: names → front ≠ [] → ∃ budget dest n,
      walk node .entry budget loc front = .ok dest ∧ node dest = some n ∧
        ∀ target, n ≠ .link target) :
    ∃ n, node (loc ++ names) = some n ∧ (∀ target, n ≠ .link target) ∧
      ∀ name ∈ names, name.fileLength ≤ maxName := by
  induction names generalizing loc with
  | nil => exact ⟨.directory, by simpa using hloc, nofun, nofun⟩
  | cons name rest ih =>
    have hname := hnames name (by simp)
    obtain ⟨budget, dest, n, hwalk, hnode, hlink⟩ := h [name] (by simp) (by simp)
    obtain ⟨-, hshort, rfl⟩ := eq_of_walk_entry hname hwalk
    cases n with
    | link target => exact absurd rfl (hlink target)
    | file content time =>
      cases rest with
      | nil => exact ⟨_, hnode, hlink, by simpa using hshort⟩
      | cons next rest =>
        -- nothing is found behind a file
        obtain ⟨budget, dest, n, hwalk, -⟩ := h [name, next] (by simp) (by simp)
        rw [walk_cons hloc hname hshort (by decide), hnode] at hwalk
        simp only at hwalk
        rw [walk, if_neg (by simp [hnode])] at hwalk
        cases hwalk
    | directory =>
      have hrest : ∀ front, front <+: rest → front ≠ [] → ∃ budget dest n,
          walk node .entry budget (loc ++ [name]) front = .ok dest ∧ node dest = some n ∧
            ∀ target, n ≠ .link target := by
        intro front hfront _
        obtain ⟨budget, dest, n, hwalk, hn⟩ :=
          h (name :: front) (List.cons_prefix_cons.2 ⟨rfl, hfront⟩) (by simp)
        rw [walk_cons hloc hname hshort (by decide), hnode] at hwalk
        exact ⟨budget, dest, n, hwalk, hn⟩
      obtain ⟨n, hn, hlink, hshorts⟩ :=
        ih (fun other hother => hnames other (by simp [hother])) hnode hrest
      refine ⟨n, by simpa using hn, hlink, fun other hother => ?_⟩
      obtain rfl | hother := List.mem_cons.1 hother
      · exact hshort
      · exact hshorts other hother

/-! ## Vacant places -/

theorem get?_dropLast_ne_none {fs : FileSystem} (h : fs.get? loc ≠ none) :
    fs.get? loc.dropLast ≠ none := by
  rcases List.eq_nil_or_concat loc with rfl | ⟨front, name, rfl⟩
  · simp
  · rw [List.concat_eq_append] at h
    simp [get?_eq_directory_of_concat h]

/-- The directory of a vacant place that a walk comes to is there. -/
theorem get?_dropLast_of_walk {fs : FileSystem}
    (h : walk fs.get? purpose budget loc names = .ok dest) (hloc : fs.get? loc ≠ none)
    (hdest : fs.get? dest = none) : fs.get? dest.dropLast = some .directory := by
  fun_induction walk fs.get? purpose budget loc names with
  | case1 budget loc =>
    cases h
    exact absurd hdest hloc
  | case2 budget loc name rest hdir hname ih => exact ih h hloc
  | case3 budget loc rest hdir hname ih => exact ih h (get?_dropLast_ne_none hloc)
  | case6 budget loc name hdir =>
    cases h
    rwa [List.dropLast_concat]
  | case8 budget loc name rest hdir hname hup hslash hlong target hlink hlast =>
    cases h
    simp [hlink] at hdest
  | case10 loc name rest hdir hname hup hslash hlong target hlink hlast budget ih =>
    exact ih h (by split <;> simp [hdir])
  | case11 budget loc name rest hdir hname hup hslash hlong n hlink hnode ih =>
    exact ih h (by simp [hnode])
  | _ => cases h

end FileSystem
end TagsFile
