import TagsFile.Proofs.Resolution

/-!
# Where resolved paths lead

A resolution looks at paths as texts and remembers what links have led to. The file system follows
the same names from place to place. Where both come to an end they agree: the names of the resolved
path, in the spelling of the file system, are those of the location.

## Main definitions

* `FileSystem.placeOf`: the location that the names of a path spell.
* `FileSystem.Orderly`: a working directory that is there, among links in the spelling of the file
  system.

## Main statements

* `FileSystem.Resolves.placeOf_eq`: a strict resolution and the file system come to the same
  location.
-/

namespace TagsFile.FileSystem

variable {fs : FileSystem} {here : Here}

/-! ## Names that can be walked along -/

/-- Whether all names of a location can be walked along. -/
def Walkable (loc : Location) : Prop :=
  ∀ name ∈ loc, (name ≠ "" ∧ name ≠ "." ∧ name ≠ "..") ∧ name.fileLength ≤ maxName

theorem walkable_concat {loc : Location} {name : Text} (hloc : Walkable loc)
    (hname : name ≠ "" ∧ name ≠ "." ∧ name ≠ "..") (hshort : name.fileLength ≤ maxName) :
    Walkable (loc ++ [name]) := by
  intro other hother
  obtain hother | hother := List.mem_append.1 hother
  · exact hloc other hother
  · obtain rfl := List.mem_singleton.1 hother
    exact ⟨hname, hshort⟩

/-- A way only comes to locations whose names can be walked along. -/
theorem Leads.walkable {node : Location → Option Node} {budget budget' : Nat} {loc dest : Location}
    {names : List Text} (h : Leads node budget loc names budget' dest) (hloc : Walkable loc) :
    Walkable dest := by
  induction h with
  | done => exact hloc
  | stay _ _ _ ih => exact ih hloc
  | up _ _ ih => exact ih fun name hname => hloc name (List.dropLast_subset _ hname)
  | down _ hname hshort _ _ _ ih => exact ih (walkable_concat hloc hname hshort)
  | link _ _ _ _ _ ih =>
    apply ih
    split
    · nofun
    · exact hloc

/-- Names lead to what is there, if it is no link. -/
theorem leads_of_get? {loc : Location} {names : List Text} {n : Node} (hnames : Walkable names)
    (h : fs.get? (loc ++ names) = some n) (hlink : ∀ target, n ≠ .link target) (budget : Nat) :
    Leads fs.get? budget loc names budget (loc ++ names) := by
  induction names generalizing loc with
  | nil => simpa using Leads.done
  | cons name rest ih =>
    obtain ⟨hname, hshort⟩ := hnames name (by simp)
    have hloc : fs.get? loc = some .directory :=
      get?_eq_directory_of_append (List.cons_ne_nil name rest) (by simp [h])
    rw [← List.singleton_append, ← List.append_assoc] at h
    have hrest := ih (fun other hother => hnames other (by simp [hother])) h
    rw [List.append_assoc, List.singleton_append] at hrest
    by_cases hempty : rest = []
    · subst hempty
      rw [List.append_nil] at h
      exact .down hloc hname hshort h hlink hrest
    · have hnext : fs.get? (loc ++ [name]) = some .directory :=
        get?_eq_directory_of_append hempty (by rw [h]; nofun)
      exact .down hloc hname hshort hnext nofun hrest

/-! ## The location of a path -/

/-- The location that the names of a path spell. -/
def placeOf (here : Here) (p : Path) : Location :=
  (p.absolute here.location).parts.map Text.respelled

theorem absolute_concat {last : Text} (hlast : last ≠ "..") (above : List Text) (p : Path) :
    (Path.mk p.anchor (p.parts ++ [last])).absolute above =
      ⟨(p.absolute above).anchor, (p.absolute above).parts ++ [last]⟩ := by
  simp [Path.absolute, Path.isAbsolute, List.foldl_append, Path.pushPart, hlast]

theorem placeOf_concat {p : Path} {name : Text} (hname : name ≠ "..") :
    placeOf here ⟨p.anchor, p.parts ++ [name]⟩ = placeOf here p ++ [name.respelled] := by
  rw [placeOf, absolute_concat hname, List.map_append]
  rfl

theorem placeOf_concat_up (p : Path) :
    placeOf here ⟨p.anchor, p.parts ++ [(".." : Text)]⟩ = (placeOf here p).dropLast := by
  simp [placeOf, Path.absolute, Path.isAbsolute, List.foldl_append, Path.pushPart]

theorem placeOf_here (h : here.location.IsNamed) : placeOf here ⟨.here, []⟩ = here.location := by
  simpa [placeOf, Path.absolute, Path.isAbsolute] using
    Text.map_respelled fun name hname => (h name hname).spelled

theorem placeOf_levelUp {p : Path} (h : fs.Clear here p) :
    placeOf here (levelUp p) = (placeOf here p).dropLast := by
  obtain ⟨anchor, parts⟩ := p
  obtain ⟨hanchor, ups, names, hparts, hroot, hnames, -⟩ := h
  dsimp only at hparts
  subst hparts
  rcases List.eq_nil_or_concat names with rfl | ⟨init, last, rfl⟩
  · obtain rfl | rfl := hanchor
    · obtain rfl := hroot rfl
      rfl
    · have hlast : (List.replicate ups (".." : Text) ++ []).getLast?.all
          (fun part : Text => part = "..") = true := by
        cases ups <;> simp [List.getLast?_replicate]
      rw [levelUp, if_pos (by simpa using hlast)]
      exact placeOf_concat_up ⟨.here, _⟩
  · have hlast : last ≠ (".." : Text) := by
      rintro rfl
      exact hnames (by simp)
    rw [List.concat_eq_append, ← List.append_assoc, levelUp, if_neg (by simp [hlast]),
      @placeOf_concat here ⟨anchor, _⟩ last hlast, List.dropLast_concat, Path.parent,
      List.dropLast_concat]

/-- A working directory that is there, among links in the spelling of the file system. -/
structure Orderly (fs : FileSystem) (here : Here) : Prop where
  isIn : IsIn here fs
  there : here.lost = []
  named : here.location.IsNamed
  spelled : ∀ loc target, fs.get? loc = some (.link target) → target.asFileName? = some target

theorem Orderly.absolute?_eq (ho : fs.Orderly here) (p : Path) :
    here.absolute? p = some (p.absolute here.location) := by
  rw [Here.absolute?]
  split
  · rename_i habsolute
    simp [Path.absolute, habsolute]
  · simp [Here.location?, ho.there]

theorem Extends.isIn {fs' : FileSystem} (h : Extends fs fs') (hhere : IsIn here fs) :
    IsIn here fs' := by
  intro hlost
  obtain ⟨tree, hfind, htree⟩ := hhere hlost
  obtain ⟨tree', hfind', hnode⟩ := h.exists_find hfind
  have hdir := (h.keeps _).1 (htree ▸ get?_of_find hfind)
  exact ⟨tree', hfind', Option.some.inj (hnode.symm.trans hdir)⟩

theorem Orderly.extend {fs' : FileSystem} (ho : fs.Orderly here) (h : Extends fs fs')
    (hlinks : ∀ loc target, fs'.get? loc = some (.link target) →
      fs.get? loc = some (.link target)) :
    fs'.Orderly here where
  isIn := h.isIn ho.isIn
  there := ho.there
  named := ho.named
  spelled loc target hlink := ho.spelled loc target (hlinks loc target hlink)

/-- The location of a path that a resolution comes through lies below a directory to which some
front of the path leads. -/
theorem Clear.exists_way (ho : fs.Orderly here) {p : Path} (h : fs.Clear here p) :
    ∃ base dest names, p = base.below names ∧ placeOf here p = dest ++ names.map Text.respelled ∧
      (".." : Text) ∉ names ∧ fs.Way here base dest ∧
      ∀ front, front <+: names → front ≠ [] → fs.FindsPlain here (base.below front) := by
  obtain ⟨base, dest, names, hp, hplace, hdest, hup, hway, hseen⟩ :=
    h.exists_base (ho.absolute?_eq p)
  refine ⟨base, dest, names, hp, ?_, hup, hway ho.isIn, hseen⟩
  rw [placeOf, hplace, Location.path, List.map_append,
    Text.map_respelled fun name hname => (ho.named name (hdest.subset hname)).spelled]

theorem isLabel_of_isComponent {names : List Text} (h : ∀ name ∈ names, IsComponent name)
    (hup : (".." : Text) ∉ names) : ∀ name ∈ names, Text.IsLabel name := by
  intro name hname
  obtain ⟨hempty, hhere, hslash⟩ := h name hname
  exact ⟨hempty, hslash, hhere, fun heq => hup (heq ▸ hname)⟩

/-- At the location of a path that a resolution comes through there is something else than a link.
-/
theorem Clear.exists_node (ho : fs.Orderly here) {p : Path} (h : fs.Clear here p)
    (hp : ∀ part ∈ p.parts, IsComponent part) :
    Walkable (placeOf here p) ∧
      ∃ n, fs.get? (placeOf here p) = some n ∧ ∀ target, n ≠ .link target := by
  obtain ⟨base, dest, names, rfl, hplace, hup, hway, hseen⟩ := h.exists_way ho
  have hnames := isLabel_of_isComponent
    (fun name hname => hp name (by simp [Path.below, hname])) hup
  obtain ⟨n, hn, hlink, hshort⟩ := hway.get?_of_findsPlain hnames hseen
  obtain ⟨front, budget, -, hleads⟩ := hway.way
  rw [hplace]
  refine ⟨fun name hname => ?_, n, hn, hlink⟩
  obtain hname | hname := List.mem_append.1 hname
  · exact hleads.walkable (List.forall_mem_nil _) name hname
  · refine ⟨?_, hshort name hname⟩
    obtain ⟨label, hlabel, rfl⟩ := List.mem_map.1 hname
    obtain ⟨hempty, -, hhere, hup⟩ := hnames label hlabel
    exact Text.respelled_plain ⟨hempty, hhere, hup⟩

/-- What a path resolves to has the location that the names of the resolved path spell. -/
theorem Orderly.exists_node_of_resolve (ho : fs.Orderly here) {p q : Path} (hp : p.IsSeparate)
    (h : fs.resolve here true p = .ok q) : Walkable (q.parts.map Text.respelled) ∧
      ∃ n, fs.get? (q.parts.map Text.respelled) = some n ∧ ∀ target, n ≠ .link target := by
  obtain ⟨r, links, hresolves, habsolute⟩ := resolve_eq_ok_iff.1 h
  obtain ⟨hclear, -⟩ := hresolves.clear (clear_start (by split <;> simp)) nofun
  obtain ⟨hparts, -⟩ := hresolves.isComponent nofun (fun name hname => (hp name hname).2) nofun
  rw [ho.absolute?_eq, Option.some.injEq] at habsolute
  subst habsolute
  exact hclear.exists_node ho hparts

/-- What a resolution finds next is in the directory that it has come to. -/
theorem Clear.find_next (ho : fs.Orderly here) {p : Path} (h : fs.Clear here p)
    (hp : ∀ part ∈ p.parts, IsComponent part) {name : Text} (hname : name.IsLabel)
    {loc : Location} {tree : Tree}
    (hfind : fs.find here .entry (Path.mk p.anchor (p.parts ++ [name])).text = .ok (loc, tree)) :
    fs.get? (placeOf here p) = some .directory ∧ loc = placeOf here p ++ [name.respelled] ∧
      fs.get? loc = some tree.node := by
  obtain ⟨base, dest, names, hbelow, hplace, hup, hway, -⟩ := h.exists_way ho
  obtain ⟨hwalkable, n, hn, hlink⟩ := h.exists_node ho hp
  rw [hplace] at hwalkable hn ⊢
  have hnext : Path.mk p.anchor (p.parts ++ [name]) = base.below (names ++ [name]) := by
    rw [hbelow, Path.below, Path.below, List.append_assoc]
  rw [hnext] at hfind
  obtain ⟨budget, hwalk, htree⟩ := hway.walk_of_find (by simp) (fun part hpart => by
    obtain hpart | hpart := List.mem_append.1 hpart
    · obtain ⟨hempty, -, hslash⟩ := hp part (by simp [hbelow, Path.below, hpart])
      exact ⟨hempty, hslash⟩
    · obtain rfl := List.mem_singleton.1 hpart
      exact ⟨hname.ne_empty, hname.no_slash⟩) hfind
  have hleads :=
    leads_of_get? (fun other hother => hwalkable other (by simp [hother])) hn hlink budget
  rw [List.map_append, hleads.walk_append (.inl (by simp)) (by decide)] at hwalk
  obtain ⟨hdir, -, rfl⟩ := eq_of_walk_entry
    (Text.respelled_plain ⟨hname.ne_empty, hname.ne_here, hname.ne_up⟩) hwalk
  refine ⟨hdir, rfl, ?_⟩
  rw [get?_eq_map, htree]
  rfl

/-! ## Strict resolutions -/

/-- What is known of links: where the file system comes to when it follows one, the path that it was
found to stand for has its location. -/
structure Knows (fs : FileSystem) (here : Here) (links : KnownLinks) : Prop where
  clear : ∀ text known, links.get? text = some (some known) → fs.Clear here known
  components : ∀ text known, links.get? text = some (some known) →
    ∀ part ∈ known.parts, IsComponent part
  place : ∀ text known, links.get? text = some (some known) → ∀ loc target budget budget' dest,
    fs.find here .entry text = .ok (loc, .link target) →
    Leads fs.get? budget (if startsAtRoot target then [] else loc.dropLast) (pieces target) budget'
      dest → placeOf here known = dest

namespace Knows

variable {links : KnownLinks}

theorem nil (fs : FileSystem) (here : Here) : Knows fs here [] where
  clear := nofun
  components := nofun
  place := nofun

theorem put_none (h : Knows fs here links) (text : Text) : Knows fs here (links.put text none) := by
  have hold {other : Text} {known : Path}
      (hother : (links.put text none).get? other = some (some known)) :
      links.get? other = some (some known) := by
    rw [Table.get?_put] at hother
    split at hother
    · cases hother
    · exact hother
  exact ⟨fun other known hknown => h.clear other known (hold hknown),
    fun other known hknown => h.components other known (hold hknown),
    fun other known hknown => h.place other known (hold hknown)⟩

theorem put_some (h : Knows fs here links) {text : Text} {q : Path} (hclear : fs.Clear here q)
    (hq : ∀ part ∈ q.parts, IsComponent part)
    (hplace : ∀ loc target budget budget' dest,
      fs.find here .entry text = .ok (loc, .link target) →
      Leads fs.get? budget (if startsAtRoot target then [] else loc.dropLast)
        (pieces target) budget'
        dest → placeOf here q = dest) :
    Knows fs here (links.put text (some q)) := by
  have hcases {other : Text} {known : Path}
      (hother : (links.put text (some q)).get? other = some (some known)) :
      other = text ∧ known = q ∨ links.get? other = some (some known) := by
    rw [Table.get?_put] at hother
    split at hother
    · rename_i heq
      cases hother
      exact .inl ⟨heq, rfl⟩
    · exact .inr hother
  constructor
  · intro other known hknown
    obtain ⟨rfl, rfl⟩ | hknown := hcases hknown
    · exact hclear
    · exact h.clear other known hknown
  · intro other known hknown
    obtain ⟨rfl, rfl⟩ | hknown := hcases hknown
    · exact hq
    · exact h.components other known hknown
  · intro other known hknown
    obtain ⟨rfl, rfl⟩ | hknown := hcases hknown
    · exact hplace
    · exact h.place other known hknown

end Knows

/-- A strict resolution and the file system come to the same location. -/
theorem Resolves.placeOf_eq (ho : fs.Orderly here) {depth : Nat} {links links' : KnownLinks}
    {p q : Path} {names : List Text} (h : fs.Resolves here depth links p names q links')
    (hclear : fs.Clear here p) (hp : ∀ part ∈ p.parts, IsComponent part)
    (hnames : ∀ name ∈ names, CodePoint.char '/' ∉ name) (hlinks : Knows fs here links) :
    Knows fs here links' ∧ ∀ budget budget' dest,
      Leads fs.get? budget (placeOf here p) (names.map Text.respelled) budget' dest →
        placeOf here q = dest := by
  induction h with
  | done =>
    refine ⟨hlinks, fun budget budget' dest hleads => ?_⟩
    cases hleads
    rfl
  | @stay _ _ _ _ _ name _ hname _ ih =>
    obtain ⟨hlinks', hrest⟩ := ih hclear hp (fun name hname => hnames name (by simp [hname])) hlinks
    refine ⟨hlinks', fun budget budget' dest hleads => hrest budget budget' dest ?_⟩
    apply hleads.of_stay
    rwa [Text.respelled_eq_ofString (by simp), Text.respelled_eq_ofString (by simp)]
  | up _ ih =>
    obtain ⟨hlinks', hrest⟩ := ih hclear.levelUp (isComponent_levelUp hp)
      (fun name hname => hnames name (by simp [hname])) hlinks
    refine ⟨hlinks', fun budget budget' dest hleads => hrest budget budget' dest ?_⟩
    rw [List.map_cons, Text.respelled_eq_self (Text.asFileName?_ofString "..")] at hleads
    rw [placeOf_levelUp hclear]
    exact hleads.of_up
  | @down _ _ _ p _ name rest hname hfind _ ih =>
    have hnext := hclear.next hname.2.2 hfind
    have hparts := isComponent_concat hp (hnames name (by simp)) hname
    obtain ⟨hlinks', hrest⟩ := ih hnext hparts
      (fun name hname => hnames name (by simp [hname])) hlinks
    refine ⟨hlinks', fun budget budget' dest hleads => hrest budget budget' dest ?_⟩
    obtain ⟨-, n, hn, hlink⟩ := hnext.exists_node ho hparts
    rw [placeOf_concat hname.2.2] at hn ⊢
    exact hleads.of_entry (Text.respelled_plain hname) hn hlink
  | @known _ _ _ p _ known name rest loc target hname hfind hknown _ ih =>
    obtain ⟨hlinks', hrest⟩ := ih (hlinks.clear _ _ hknown) (hlinks.components _ _ hknown)
      (fun name hname => hnames name (by simp [hname])) hlinks
    refine ⟨hlinks', fun budget budget' dest hleads => ?_⟩
    obtain ⟨-, rfl, hnode⟩ := hclear.find_next ho hp
      ⟨hname.1, hnames name (by simp), hname.2.1, hname.2.2⟩ hfind
    obtain ⟨budget₁, budget₂, between, hfront, hback⟩ :=
      hleads.of_link (Text.respelled_plain hname) hnode
    have hplace := hlinks.place _ _ hknown _ _ _ _ _ hfind (by rwa [List.dropLast_concat])
    exact hrest _ _ _ (hplace ▸ hback)
  | @link _ _ _ _ p between _ name rest loc target hname hfind hnew htarget _ ih₁ ih =>
    obtain ⟨-, rfl, hnode⟩ := hclear.find_next ho hp
      ⟨hname.1, hnames name (by simp), hname.2.1, hname.2.2⟩ hfind
    have hpieces : (pieces target).map Text.respelled = pieces target :=
      (pieces_respelled (ho.spelled _ _ hnode)).symm
    have hslash : ∀ piece ∈ pieces target, CodePoint.char '/' ∉ piece := notMem_of_mem_splitAtEach
    have hstart : fs.Clear here (if startsAtRoot target then ⟨.root, []⟩ else p) := by
      split
      · exact clear_start (.inl rfl)
      · exact hclear
    have hparts : ∀ part ∈ (if startsAtRoot target then ⟨.root, []⟩ else p : Path).parts,
        IsComponent part := by
      split
      · nofun
      · exact hp
    have hnone := hlinks.put_none (Path.mk p.anchor (p.parts ++ [name])).text
    obtain ⟨hlinks₁, hfront⟩ := ih₁ hstart hparts hslash hnone
    have hbetween := (htarget.clear hstart hnone.clear).1
    have hcomponents := (htarget.isComponent hparts hslash hnone.components).1
    have hplaceStart : placeOf here (if startsAtRoot target then ⟨.root, []⟩ else p) =
        if startsAtRoot target then [] else placeOf here p := by
      split <;> rfl
    rw [hplaceStart, hpieces] at hfront
    obtain ⟨hlinks', hrest⟩ := ih hbetween hcomponents
      (fun name hname => hnames name (by simp [hname])) (hlinks₁.put_some hbetween hcomponents (by
        intro loc target' budget budget' dest hfind' hleads
        cases hfind'.symm.trans hfind
        rw [List.dropLast_concat] at hleads
        exact hfront _ _ _ hleads))
    refine ⟨hlinks', fun budget budget' dest hleads => ?_⟩
    obtain ⟨budget₁, budget₂, mid, hfirst, hback⟩ :=
      hleads.of_link (Text.respelled_plain hname) hnode
    exact hrest _ _ _ (hfront _ _ _ hfirst ▸ hback)

end TagsFile.FileSystem
