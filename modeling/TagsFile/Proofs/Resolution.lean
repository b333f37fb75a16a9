import TagsFile.FileSystem.Resolve
import TagsFile.Proofs.EntryPlace
import TagsFile.Proofs.Spelling

/-!
# Resolved paths

A strict resolution ends at a path on which no link stands: its names spell the location of what it
leads to. As long as all that is there stays what it is, the path resolves to the same one.

## Main definitions

* `FileSystem.Clear`: the paths that a resolution comes through.
* `FileSystem.Extends`: changes after which all that was there is still what it was.
-/

namespace TagsFile.FileSystem

variable {fs fs' : FileSystem} {here : Here}

/-! ## Names that have been looked at -/

/-- A path at whose end something else than a link is. -/
def FindsPlain (fs : FileSystem) (here : Here) (p : Path) : Prop :=
  ∃ loc tree, fs.find here .entry p.text = .ok (loc, tree) ∧ ∀ target, tree ≠ .link target

theorem eq_ok_of_present {result : Except SystemError Location} {loc : Location} {tree : Tree}
    (h : (result.map fs.targetAt).mapError FileError.system = .ok (.present loc tree)) :
    result = .ok loc := by
  rw [mapError_eq_ok] at h
  cases result with
  | error e => simp [Except.map] at h
  | ok found =>
    rw [Except.map, Except.ok.injEq, targetAt] at h
    split at h
    · cases h
      rfl
    · cases h

/-- The names behind a directory stand behind the way to it, in the spelling of the file system. -/
theorem Way.exists_leads_of_namesFrom? {base : Path} {dest : Location} {names whole : List Text}
    (h : fs.Way here base dest) (hne : names ≠ [])
    (hnames : ∀ name ∈ names, name ≠ "" ∧ CodePoint.char '/' ∉ name)
    (hwhole : namesFrom? here (base.below names).text = some whole) :
    ∃ front budget, whole = front ++ names.map Text.respelled ∧
      Leads fs.get? maxLinks [] front budget dest := by
  have hseparate : (base.below names).IsSeparate := by
    intro part hpart
    obtain hpart | hpart := List.mem_append.1 hpart
    · exact h.proper.isSeparate part hpart
    · exact hnames part hpart
  have hspelled : (Path.leading base.anchor ++ base.parts).map Text.respelled =
      Path.leading base.anchor ++ base.parts := by
    apply Text.map_respelled
    intro part hpart
    obtain hpart | hpart := List.mem_append.1 hpart
    · obtain rfl : part = "" := by cases hanchor : base.anchor <;> simp_all [Path.leading]
      exact Text.asFileName?_nil
    · exact (h.proper part hpart).spelled
  obtain ⟨front, budget, hleave, hleads⟩ := h.way
  refine ⟨_, budget, ?_, hleads⟩
  cases hbytes : (base.below names).text.fileBytes? with
  | none => simp [namesFrom?, hbytes] at hwhole
  | some bytes =>
    have hpieces : pieces (Text.ofFileBytes bytes) =
        Path.leading base.anchor ++ base.parts ++ names.map Text.respelled := by
      rw [pieces_respelled (by rw [Text.asFileName?, hbytes, Option.map_some]), Path.below,
        Path.pieces_text hseparate (by simp [hne]), ← List.append_assoc, List.map_append, hspelled]
    have hstart : (if startsAtRoot (base.below names).text then Here.root else here) =
        startOf here base := by
      rw [startsAtRoot_text hseparate]
      rfl
    simp only [namesFrom?, hbytes, hstart, Option.map_some, Option.bind_some, hpieces,
      leave?_append hleave, Option.some.injEq, ← List.append_assoc] at hwhole
    exact hwhole.symm

/-- The names behind a directory are followed from there. -/
theorem Way.walk_of_find {base : Path} {dest loc : Location} {names : List Text} {tree : Tree}
    (h : fs.Way here base dest) (hne : names ≠ [])
    (hnames : ∀ name ∈ names, name ≠ "" ∧ CodePoint.char '/' ∉ name)
    (hfind : fs.find here .entry (base.below names).text = .ok (loc, tree)) :
    ∃ budget, walk fs.get? .entry budget dest (names.map Text.respelled) = .ok loc ∧
      fs.tree? loc = some tree := by
  obtain ⟨gone, hgone⟩ | ⟨whole, found, hwhole, hwalk, hfound⟩ :=
    exists_walk_of_locate (locate_of_find hfind)
  · cases hgone
  · obtain rfl : found = loc := by
      rw [targetAt] at hfound
      split at hfound <;> cases hfound
      rfl
    obtain ⟨front, budget, rfl, hleads⟩ := h.exists_leads_of_namesFrom? hne hnames hwhole
    rw [hleads.walk_append (.inl (by simpa using hne)) (by decide)] at hwalk
    exact ⟨budget, hwalk, tree?_of_find hfind⟩

/-- If nothing on the way along some names is a link, something is where they say. -/
theorem Way.get?_of_findsPlain {base : Path} {dest : Location} {names : List Text}
    (h : fs.Way here base dest) (hnames : ∀ name ∈ names, Text.IsLabel name)
    (hseen : ∀ front, front <+: names → front ≠ [] → fs.FindsPlain here (base.below front)) :
    ∃ n, fs.get? (dest ++ names.map Text.respelled) = some n ∧ (∀ target, n ≠ .link target) ∧
      ∀ name ∈ names.map Text.respelled, name.fileLength ≤ maxName := by
  apply exists_plain_of_walks
  · intro name hname
    obtain ⟨label, hlabel, rfl⟩ := List.mem_map.1 hname
    obtain ⟨hempty, -, hhere, hup⟩ := hnames label hlabel
    exact Text.respelled_plain ⟨hempty, hhere, hup⟩
  · exact h.directory
  · intro front hfront hne
    obtain ⟨rest, hrest, rfl⟩ := List.prefix_map_iff.1 hfront
    obtain ⟨loc, tree, hfind, hlink⟩ := hseen rest hrest (by simpa using hne)
    obtain ⟨budget, hwalk, htree⟩ := h.walk_of_find (by simpa using hne)
      (fun name hname => ⟨(hnames name (hrest.subset hname)).ne_empty,
        (hnames name (hrest.subset hname)).no_slash⟩) hfind
    refine ⟨budget, loc, tree.node, hwalk, by rw [get?_eq_map, htree]; rfl, fun target heq => ?_⟩
    exact hlink target (by cases tree <;> simp_all [Tree.node])

/-! ## The paths that a resolution comes through -/

/-- A path that a resolution comes through: it leads up, if it is relative, and then down along
names none of which is a link. -/
structure Clear (fs : FileSystem) (here : Here) (p : Path) : Prop where
  anchor : p.anchor = .root ∨ p.anchor = .here
  way : ∃ ups names, p.parts = List.replicate ups (".." : Text) ++ names ∧
    (p.anchor = .root → ups = 0) ∧ (".." : Text) ∉ names ∧
    ∀ front, front <+: names → front ≠ [] →
      fs.FindsPlain here ⟨p.anchor, List.replicate ups (".." : Text) ++ front⟩

theorem clear_start {anchor : Anchor} (h : anchor = .root ∨ anchor = .here) :
    fs.Clear here ⟨anchor, []⟩ := by
  refine ⟨h, 0, [], rfl, fun _ => rfl, List.not_mem_nil, ?_⟩
  intro front hfront hne
  exact absurd (List.prefix_nil.1 hfront) hne

theorem Clear.levelUp {p : Path} (h : fs.Clear here p) : fs.Clear here (levelUp p) := by
  obtain ⟨anchor, parts⟩ := p
  obtain ⟨hanchor, ups, names, hparts, hroot, hnames, hseen⟩ := h
  dsimp only at hparts
  subst hparts
  rcases List.eq_nil_or_concat names with rfl | ⟨init, last, rfl⟩
  · obtain rfl | rfl := hanchor
    · obtain rfl := hroot rfl
      exact clear_start (.inl rfl)
    · have hlast : (List.replicate ups (".." : Text) ++ []).getLast?.all
          (fun part : Text => part = "..") = true := by
        cases ups <;> simp [List.getLast?_replicate]
      rw [FileSystem.levelUp, if_pos (by simpa using hlast)]
      refine ⟨.inr rfl, ups + 1, [], ?_, nofun, List.not_mem_nil, ?_⟩
      · simp [List.replicate_succ']
      · intro front hfront hne
        exact absurd (List.prefix_nil.1 hfront) hne
  · have hlast : last ≠ (".." : Text) := by
      rintro rfl
      exact hnames (by simp)
    rw [FileSystem.levelUp, if_neg (by simp [hlast])]
    refine ⟨hanchor, ups, init, ?_, hroot, fun hmem => hnames (by simp [hmem]), ?_⟩
    · simp [Path.parent, ← List.append_assoc]
    · intro front hfront hne
      exact hseen front (hfront.trans (by simp)) hne

theorem Clear.next {p : Path} {name : Text} (h : fs.Clear here p) (hname : name ≠ "..")
    (hfind : fs.FindsPlain here ⟨p.anchor, p.parts ++ [name]⟩) :
    fs.Clear here ⟨p.anchor, p.parts ++ [name]⟩ := by
  obtain ⟨ups, names, hparts, hroot, hnames, hseen⟩ := h.way
  refine ⟨h.anchor, ups, names ++ [name], by rw [hparts, List.append_assoc], hroot, ?_, ?_⟩
  · intro hmem
    obtain hmem | hmem := List.mem_append.1 hmem
    · exact hnames hmem
    · exact hname (List.mem_singleton.1 hmem).symm
  · intro front hfront hne
    obtain rfl | hfront := List.prefix_concat_iff.1 hfront
    · rwa [← List.append_assoc, ← hparts]
    · exact hseen front hfront hne

/-! ## Strict resolutions -/

/-- The steps of a strict resolution that comes to its end. -/
inductive Resolves (fs : FileSystem) (here : Here) :
    Nat → KnownLinks → Path → List Text → Path → KnownLinks → Prop where
  | done {depth : Nat} {links : KnownLinks} {p : Path} : Resolves fs here depth links p [] p links
  | stay {depth : Nat} {links links' : KnownLinks} {p q : Path} {name : Text} {rest : List Text}
      (hname : name = "" ∨ name = ".") (hrest : Resolves fs here depth links p rest q links') :
      Resolves fs here depth links p (name :: rest) q links'
  | up {depth : Nat} {links links' : KnownLinks} {p q : Path} {rest : List Text}
      (hrest : Resolves fs here depth links (levelUp p) rest q links') :
      Resolves fs here depth links p (".." :: rest) q links'
  | down {depth : Nat} {links links' : KnownLinks} {p q : Path} {name : Text} {rest : List Text}
      (hname : name ≠ "" ∧ name ≠ "." ∧ name ≠ "..")
      (hfind : fs.FindsPlain here ⟨p.anchor, p.parts ++ [name]⟩)
      (hrest : Resolves fs here depth links ⟨p.anchor, p.parts ++ [name]⟩ rest q links') :
      Resolves fs here depth links p (name :: rest) q links'
  /-- A link that has been followed before. -/
  | known {depth : Nat} {links links' : KnownLinks} {p q known : Path} {name : Text}
      {rest : List Text} {loc : Location} {target : Text}
      (hname : name ≠ "" ∧ name ≠ "." ∧ name ≠ "..")
      (hfind : fs.find here .entry (Path.mk p.anchor (p.parts ++ [name])).text =
        .ok (loc, .link target))
      (hknown : links.get? (Path.mk p.anchor (p.parts ++ [name])).text = some (some known))
      (hrest : Resolves fs here depth links known rest q links') :
      Resolves fs here depth links p (name :: rest) q links'
  | link {depth : Nat} {links links₁ links' : KnownLinks} {p between q : Path} {name : Text}
      {rest : List Text} {loc : Location} {target : Text}
      (hname : name ≠ "" ∧ name ≠ "." ∧ name ≠ "..")
      (hfind : fs.find here .entry (Path.mk p.anchor (p.parts ++ [name])).text =
        .ok (loc, .link target))
      (hnew : links.get? (Path.mk p.anchor (p.parts ++ [name])).text = none)
      (htarget : Resolves fs here depth
        (links.put (Path.mk p.anchor (p.parts ++ [name])).text none)
        (if startsAtRoot target then ⟨.root, []⟩ else p) (pieces target) between links₁)
      (hrest : Resolves fs here (depth + 1)
        (links₁.put (Path.mk p.anchor (p.parts ++ [name])).text (some between)) between rest q
        links') :
      Resolves fs here (depth + 1) links p (name :: rest) q links'

theorem resolves_of_resolveFrom {depth : Nat} {links : KnownLinks} {p : Path} {names : List Text}
    {r : Resolved} (h : fs.resolveFrom here true depth links p names = .ok r) :
    r.complete = true ∧ fs.Resolves here depth links p names r.path r.links := by
  fun_induction resolveFrom fs here true depth links p names generalizing r with
  | case1 depth links p =>
    cases h
    exact ⟨rfl, .done⟩
  | case2 depth links p name rest hname ih =>
    obtain ⟨hr, ih⟩ := ih h
    exact ⟨hr, .stay (stays_iff.1 hname) ih⟩
  | case3 depth links p rest hname ih =>
    obtain ⟨hr, ih⟩ := ih h
    exact ⟨hr, .up ih⟩
  | case6 => contradiction
  | case7 depth links p name rest hname hup next loc target hfind known hknown =>
    rename_i ih
    obtain ⟨hr, ih⟩ := ih h
    exact ⟨hr, .known (plain_iff.2 ⟨hname, hup⟩) hfind hknown ih⟩
  | case10 => contradiction
  | case13 links p name rest hname hup next loc target hfind hnew depth start q links' htarget =>
    rename_i ih
    obtain ⟨hfalse, -⟩ := ih htarget
    cases hfalse
  | case14 links p name rest hname hup next loc target hfind hnew depth start q links' htarget
      ih₁ =>
    rename_i ih
    obtain ⟨hr, ih⟩ := ih h
    exact ⟨hr, .link (plain_iff.2 ⟨hname, hup⟩) hfind hnew (ih₁ htarget).2 ih⟩
  | case15 depth links p name rest hname hup next found hlink hfind =>
    rename_i ih
    obtain ⟨hr, ih⟩ := ih h
    obtain ⟨loc, tree⟩ := found
    have hplain : fs.FindsPlain here next :=
      ⟨loc, tree, hfind, fun target heq => hlink loc target (by rw [heq])⟩
    exact ⟨hr, .down (plain_iff.2 ⟨hname, hup⟩) hplain ih⟩
  | _ => cases h

/-- A resolution goes on from where names have led, be it strict or not. -/
theorem Resolves.resolveFrom_append {depth : Nat} {links links' : KnownLinks} {p q : Path}
    {names : List Text} (h : fs.Resolves here depth links p names q links') (strict : Bool)
    (rest : List Text) : fs.resolveFrom here strict depth links p (names ++ rest) =
      fs.resolveFrom here strict depth links' q rest := by
  induction h generalizing rest with
  | done => rfl
  | stay hname hrest ih => rw [List.cons_append, resolveFrom, if_pos (stays_iff.2 hname), ih]
  | up hrest ih => rw [List.cons_append, resolveFrom, if_neg (by decide), if_pos rfl, ih]
  | down hname hfind hrest ih =>
    obtain ⟨loc, tree, hfind, hlink⟩ := hfind
    obtain ⟨hstay, hup⟩ := plain_iff.1 hname
    rw [List.cons_append, resolveFrom, if_neg hstay, if_neg hup]
    cases tree with
    | link target => exact absurd rfl (hlink target)
    | file | directory => simp only [hfind, ih]
  | known hname hfind hknown hrest ih =>
    obtain ⟨hstay, hup⟩ := plain_iff.1 hname
    rw [List.cons_append, resolveFrom, if_neg hstay, if_neg hup]
    simp only [hfind, hknown, ih]
  | link hname hfind hnew htarget hrest ih₁ ih =>
    obtain ⟨hstay, hup⟩ := plain_iff.1 hname
    have hbetween := ih₁ []
    rw [List.append_nil, resolveFrom.eq_def _ _ _ _ _ _ []] at hbetween
    rw [List.cons_append, resolveFrom, if_neg hstay, if_neg hup]
    simp only [hfind, hnew, hbetween, ih]

theorem Resolves.resolveFrom_eq {depth : Nat} {links links' : KnownLinks} {p q : Path}
    {names : List Text} (h : fs.Resolves here depth links p names q links') :
    fs.resolveFrom here true depth links p names = .ok ⟨q, true, links'⟩ := by
  have heq := h.resolveFrom_append true []
  rwa [List.append_nil, resolveFrom.eq_def _ _ _ _ _ _ []] at heq

/-- What the root has, a level up keeps and names keep that lead on without a link, is true of the
path that a strict resolution gives and of all links that it has followed. -/
theorem Resolves.keeps {P : Path → Prop} {Q : Text → Prop} (hroot : P ⟨.root, []⟩)
    (hup : ∀ p, P p → P (levelUp p))
    (hdown : ∀ p name, P p → Q name → (name ≠ "" ∧ name ≠ "." ∧ name ≠ "..") →
      fs.FindsPlain here ⟨p.anchor, p.parts ++ [name]⟩ → P ⟨p.anchor, p.parts ++ [name]⟩)
    (hpieces : ∀ target, ∀ piece ∈ pieces target, Q piece)
    {depth : Nat} {links links' : KnownLinks} {p q : Path} {names : List Text}
    (h : fs.Resolves here depth links p names q links') (hp : P p) (hnames : ∀ name ∈ names, Q name)
    (hlinks : ∀ text known, links.get? text = some (some known) → P known) :
    P q ∧ ∀ text known, links'.get? text = some (some known) → P known := by
  induction h with
  | done => exact ⟨hp, hlinks⟩
  | stay _ _ ih => exact ih hp (List.forall_mem_cons.1 hnames).2 hlinks
  | up _ ih => exact ih (hup _ hp) (List.forall_mem_cons.1 hnames).2 hlinks
  | down hname hfind _ ih =>
    obtain ⟨hfirst, hrest⟩ := List.forall_mem_cons.1 hnames
    exact ih (hdown _ _ hp hfirst hname hfind) hrest hlinks
  | known _ _ hknown _ ih => exact ih (hlinks _ _ hknown) (List.forall_mem_cons.1 hnames).2 hlinks
  | @link _ _ _ _ p _ _ _ _ _ target _ _ _ _ _ ih₁ ih =>
    have hstart : P (if startsAtRoot target then ⟨.root, []⟩ else p) := by
      split
      · exact hroot
      · exact hp
    obtain ⟨hbetween, hlinks₁⟩ := ih₁ hstart (hpieces target) fun text known hknown => by
      rw [Table.get?_put] at hknown
      split at hknown
      · cases hknown
      · exact hlinks text known hknown
    refine ih hbetween (List.forall_mem_cons.1 hnames).2 fun text known hknown => ?_
    rw [Table.get?_put] at hknown
    split at hknown
    · cases hknown
      exact hbetween
    · exact hlinks₁ text known hknown

/-- A strict resolution goes from one clear path to another. -/
theorem Resolves.clear {depth : Nat} {links links' : KnownLinks} {p q : Path} {names : List Text}
    (h : fs.Resolves here depth links p names q links') (hp : fs.Clear here p)
    (hlinks : ∀ text known, links.get? text = some (some known) → fs.Clear here known) :
    fs.Clear here q ∧ ∀ text known, links'.get? text = some (some known) → fs.Clear here known :=
  Resolves.keeps (Q := fun _ => True) (clear_start (.inl rfl)) (fun _ hp => hp.levelUp)
    (fun _ _ hp _ hname hfind => hp.next hname.2.2 hfind) (fun _ _ _ => trivial) h hp
    (fun _ _ => trivial) hlinks

/-- A component as a path has it that is read off a text. -/
def IsComponent (part : Text) : Prop := part ≠ "" ∧ part ≠ "." ∧ CodePoint.char '/' ∉ part

theorem isComponent_levelUp {p : Path} (h : ∀ part ∈ p.parts, IsComponent part) :
    ∀ part ∈ (levelUp p).parts, IsComponent part := by
  intro part hpart
  rw [levelUp] at hpart
  split at hpart
  · obtain hpart | hpart := List.mem_append.1 hpart
    · exact h part hpart
    · obtain rfl := List.mem_singleton.1 hpart
      exact ⟨by decide, by decide, by decide⟩
  · exact h part (List.dropLast_subset _ hpart)

theorem isComponent_concat {parts : List Text} {name : Text} (h : ∀ part ∈ parts, IsComponent part)
    (hslash : CodePoint.char '/' ∉ name) (hname : name ≠ "" ∧ name ≠ "." ∧ name ≠ "..") :
    ∀ part ∈ parts ++ [name], IsComponent part := by
  intro part hpart
  obtain hpart | hpart := List.mem_append.1 hpart
  · exact h part hpart
  · obtain rfl := List.mem_singleton.1 hpart
    exact ⟨hname.1, hname.2.1, hslash⟩

/-- A strict resolution keeps to components that can be read off texts. -/
theorem Resolves.isComponent {depth : Nat} {links links' : KnownLinks} {p q : Path}
    {names : List Text} (h : fs.Resolves here depth links p names q links')
    (hp : ∀ part ∈ p.parts, IsComponent part) (hnames : ∀ name ∈ names, CodePoint.char '/' ∉ name)
    (hlinks : ∀ text known, links.get? text = some (some known) →
      ∀ part ∈ known.parts, IsComponent part) :
    (∀ part ∈ q.parts, IsComponent part) ∧
      ∀ text known, links'.get? text = some (some known) →
        ∀ part ∈ known.parts, IsComponent part :=
  Resolves.keeps (P := fun p => ∀ part ∈ p.parts, IsComponent part)
    (Q := fun name => CodePoint.char '/' ∉ name) nofun (fun _ => isComponent_levelUp)
    (fun _ _ hp hslash hname _ => isComponent_concat hp hslash hname)
    (fun _ => notMem_of_mem_splitAtEach) h hp hnames hlinks

/-! ## Where resolved paths are -/

theorem way_root (fs : FileSystem) (here : Here) : fs.Way here ⟨.root, []⟩ [] where
  proper := nofun
  directory := get?_root fs
  way := ⟨[""], maxLinks, rfl, .stay (get?_root fs) (.inl rfl) .done⟩

/-- Whether the dot leads to the working directory, unless that has been taken away. -/
def IsIn (here : Here) (fs : FileSystem) : Prop :=
  here.lost = [] → ∃ tree, fs.find here .target "." = .ok (here.location, tree) ∧
    tree.node = .directory

/-- Above the working directory there are directories. -/
theorem way_up (hhere : IsIn here fs) (hlost : here.lost = []) (ups : Nat) :
    fs.Way here ⟨.here, List.replicate ups (".." : Text)⟩
      (here.location.reverse.drop ups).reverse := by
  induction ups with
  | zero =>
    obtain ⟨tree, hfind, htree⟩ := hhere hlost
    rw [List.drop_zero, List.reverse_reverse]
    have hbase : fs.Base here ⟨.here, []⟩ here.location := .of_find nofun hfind htree
    exact hbase.toWay
  | succ ups ih =>
    obtain ⟨names, budget, hleave, hleads⟩ := ih.way
    have hup : (here.location.reverse.drop (ups + 1)).reverse =
        (here.location.reverse.drop ups).reverse.dropLast := by
      rw [List.dropLast_reverse, List.tail_drop]
    rw [hup]
    refine ⟨?_, get?_eq_directory_of_front (List.dropLast_prefix _) ih.directory,
      names ++ [(".." : Text)], budget, ?_, ?_⟩
    · intro part hpart
      rw [List.eq_of_mem_replicate hpart]
      exact ⟨by decide, by decide, by decide, Text.asFileName?_ofString ".."⟩
    · have hmore := leave?_append hleave [(".." : Text)]
      rw [List.append_assoc, ← List.replicate_succ'] at hmore
      exact hmore
    · have hmore := hleads.trans (.up ih.directory .done)
      rw [List.append_assoc] at hmore
      exact hmore

theorem foldl_pushPart_ups (ups : Nat) (above : List Text) :
    (List.replicate ups (".." : Text)).foldl Path.pushPart above = above.drop ups := by
  induction ups generalizing above with
  | zero => rfl
  | succ ups ih =>
    rw [List.replicate_succ, List.foldl_cons, ih, Path.pushPart, if_pos rfl, List.drop_tail]

theorem foldl_pushPart_names {names : List Text} (h : (".." : Text) ∉ names) (above : List Text) :
    names.foldl Path.pushPart above = names.reverse ++ above := by
  induction names generalizing above with
  | nil => rfl
  | cons name names ih =>
    rw [List.mem_cons, not_or] at h
    rw [List.foldl_cons, ih h.2, Path.pushPart, if_neg (Ne.symm h.1), List.reverse_cons,
      List.append_assoc]
    rfl

theorem resolve_eq_ok_iff {p q : Path} : fs.resolve here true p = .ok q ↔ ∃ r links,
    fs.Resolves here here.depths.links [] ⟨if p.isAbsolute then .root else .here, []⟩ p.parts r
      links ∧ here.absolute? r = some q := by
  constructor
  · intro h
    rw [resolve] at h
    split at h
    · cases h
    · rename_i r hr
      split at h
      · cases h
      · rename_i q' hq
        obtain rfl : q' = q := by simpa using h
        exact ⟨r.path, r.links, (resolves_of_resolveFrom hr).2, hq⟩
  · rintro ⟨r, links, hresolves, habsolute⟩
    rw [resolve, hresolves.resolveFrom_eq]
    simp [habsolute]

/-- The absolute path that a resolution ends with: the location of a directory, which is the root,
the working directory or one above it, and then names that have been looked at. -/
theorem Clear.exists_base {p q : Path} (h : fs.Clear here p) (hq : here.absolute? p = some q) :
    ∃ base dest names, p = base.below names ∧ q = Location.path (dest ++ names) ∧
      dest <+: here.location ∧ (".." : Text) ∉ names ∧ (IsIn here fs → fs.Way here base dest) ∧
      ∀ front, front <+: names → front ≠ [] → fs.FindsPlain here (base.below front) := by
  obtain ⟨anchor, parts⟩ := p
  obtain ⟨hanchor, ups, names, hparts, hroot, hnames, hseen⟩ := h
  dsimp only at hparts
  subst hparts
  obtain rfl | rfl := hanchor
  · obtain rfl := hroot rfl
    obtain rfl : ⟨.root, names⟩ = q := by
      simpa [Here.absolute?, Path.isAbsolute, Path.absolute, foldl_pushPart_names hnames] using hq
    exact ⟨⟨.root, []⟩, [], names, rfl, rfl, List.nil_prefix, hnames, fun _ => way_root fs here,
      hseen⟩
  · have hlost : here.lost = [] := by
      apply Decidable.byContradiction
      intro hlost
      simp [Here.absolute?, Path.isAbsolute, Here.location?, hlost] at hq
    obtain rfl : ⟨.root, (here.location.reverse.drop ups).reverse ++ names⟩ = q := by
      simpa [Here.absolute?, Path.isAbsolute, Here.location?, hlost, Path.absolute,
        foldl_pushPart_names hnames, foldl_pushPart_ups] using hq
    have hfront : (here.location.reverse.drop ups).reverse <+: here.location := by
      rw [← List.reverse_suffix, List.reverse_reverse]
      exact List.drop_suffix ups _
    exact ⟨⟨.here, List.replicate ups ".."⟩, _, names, rfl, rfl, hfront, hnames,
      fun hhere => way_up hhere hlost ups, hseen⟩

/-- A resolved path is made of names. -/
theorem isLabel_of_resolve (hhere : here.location.IsNamed) {p q : Path} (hp : p.IsSeparate)
    (h : fs.resolve here true p = .ok q) :
    ∃ loc, q = Location.path loc ∧ ∀ name ∈ loc, Text.IsLabel name := by
  obtain ⟨r, links, hresolves, habsolute⟩ := resolve_eq_ok_iff.1 h
  obtain ⟨hclear, -⟩ := hresolves.clear (clear_start (by split <;> simp)) nofun
  obtain ⟨hparts, -⟩ := hresolves.isComponent nofun (fun name hname => (hp name hname).2) nofun
  obtain ⟨base, dest, names, rfl, rfl, hdest, hup, -, -⟩ := hclear.exists_base habsolute
  refine ⟨dest ++ names, rfl, fun name hname => ?_⟩
  obtain hname | hname := List.mem_append.1 hname
  · exact (hhere name (hdest.subset hname)).isLabel
  · obtain ⟨hempty, hdot, hslash⟩ := hparts name (by simp [Path.below, hname])
    exact ⟨hempty, hslash, hdot, fun heq => hup (heq ▸ hname)⟩

/-- What a path resolves to is where the names of the resolved path say, and it is no link. -/
theorem get?_of_resolve (hhere : IsIn here fs) {p : Path} {loc : Location} (hloc : loc.IsNamed)
    (h : fs.resolve here true p = .ok loc.path) :
    ∃ n, fs.get? loc = some n ∧ ∀ target, n ≠ .link target := by
  obtain ⟨r, links, hresolves, habsolute⟩ := resolve_eq_ok_iff.1 h
  obtain ⟨hclear, -⟩ := hresolves.clear (clear_start (by split <;> simp)) nofun
  obtain ⟨base, dest, names, rfl, hq, -, -, hway, hseen⟩ := hclear.exists_base habsolute
  obtain rfl : loc = dest ++ names := congrArg Path.parts hq
  obtain ⟨n, hn, hlink, -⟩ := (hway hhere).get?_of_findsPlain
    (fun name hname => (hloc name (by simp [hname])).isLabel) hseen
  rw [Text.map_respelled fun name hname => (hloc name (by simp [hname])).spelled] at hn
  exact ⟨n, hn, hlink⟩

/-- There are only directories on the way to what is there. -/
theorem unlinked_of_get? {loc : Location} {n : Node} (h : fs.get? loc = some n)
    (hlink : ∀ target, n ≠ .link target) : Unlinked fs.get? [] loc := by
  rintro front ⟨rest, rfl⟩ target hfront
  by_cases hrest : rest = []
  · subst hrest
    rw [List.append_nil] at h
    exact hlink target (Option.some.inj (h.symm.trans hfront))
  · have hdir := get?_eq_directory_of_append hrest (show fs.get? (front ++ rest) ≠ none by simp [h])
    rw [List.nil_append, hdir] at hfront
    cases hfront

/-- What is read at the canonical path of a location is the file there. -/
theorem get?_of_read {loc : Location} {content : List UInt8} (hloc : loc.IsNamed)
    (hlinks : Unlinked fs.get? [] loc) (h : fs.read here loc.text = .ok content) :
    ∃ time, fs.get? loc = some (.file content time) ∧ fs.modifiedAt here loc.text = .ok time := by
  have hne : loc ≠ [] := by
    rintro rfl
    have hbase : fs.Base here ⟨.root, []⟩ [] := ⟨way_root fs here, by decide⟩
    obtain ⟨tree, hlocate, -, htree⟩ := hbase.locate_target
    have hroot : fs.locate here .target (Location.text []) = .ok (.present [] tree) := hlocate
    cases tree <;> simp_all [FileSystem.read, Tree.node]
  have hlocate : fs.locate here .target loc.text = .ok (fs.targetAt loc) := by
    obtain ⟨e, hlocate⟩ | ⟨hlocate, -⟩ := (way_root fs here).locate_below_cases
      (show Purpose.target ≠ .output by decide) hne hloc hlinks
    · have herror : fs.locate here .target loc.text = .error (.system e) := hlocate
      simp [FileSystem.read, herror] at h
    · exact hlocate
  cases hnode : fs.get? loc with
  | none =>
    rw [targetAt_eq_vacant hnode] at hlocate
    simp [FileSystem.read, hlocate] at h
  | some n =>
    obtain ⟨tree, rfl, -, htarget⟩ := targetAt_eq_present hnode
    rw [htarget] at hlocate
    cases tree with
    | file bytes time =>
      simp only [FileSystem.read, hlocate, Except.ok.injEq] at h
      subst h
      exact ⟨time, rfl, by rw [modifiedAt, hlocate]; rfl⟩
    | link | directory => simp [FileSystem.read, hlocate] at h

/-- A directory cannot be read. -/
theorem read_ne_of_directory {loc : Location} (hloc : loc.IsNamed)
    (h : fs.get? loc = some .directory) (content : List UInt8) :
    fs.read here loc.text ≠ .ok content := by
  intro hread
  obtain ⟨time, hfile, -⟩ := get?_of_read hloc (unlinked_of_get? h nofun) hread
  cases h.symm.trans hfile

/-- The canonical path of a file leads to it, unless that path is too long. -/
theorem locate_source (here : Here) {loc : Location} {content : List UInt8} {time : Int}
    (hloc : loc.IsNamed) (h : fs.get? loc = some (.file content time)) :
    Fits ⟨.root, []⟩ loc ∧
        fs.locate here .target loc.text = .ok (.present loc (.file content time)) ∨
      ¬Fits ⟨.root, []⟩ loc ∧ ∃ e, fs.locate here .target loc.text = .error (.system e) := by
  have hne : loc ≠ [] := by
    rintro rfl
    simp at h
  have hlinks : Unlinked fs.get? [] loc := unlinked_of_get? h nofun
  have hpurpose : Purpose.target ≠ .output := by decide
  by_cases hfits : Fits ⟨.root, []⟩ loc
  · exact .inl ⟨hfits, (way_root fs here).locate_file hpurpose hne hloc hlinks hfits h⟩
  · obtain ⟨e, hlocate⟩ | ⟨-, hfits', -⟩ :=
      (way_root fs here).locate_below_cases hpurpose hne hloc hlinks
    · exact .inr ⟨hfits, e, hlocate⟩
    · exact absurd hfits' hfits

theorem read_source {loc : Location} {content bytes : List UInt8} {time : Int} (hloc : loc.IsNamed)
    (h : fs.get? loc = some (.file content time)) :
    fs.read here loc.text = .ok bytes ↔ Fits ⟨.root, []⟩ loc ∧ content = bytes := by
  obtain ⟨hfits, hlocate⟩ | ⟨hfits, e, hlocate⟩ := locate_source here hloc h
  · simp [FileSystem.read, hlocate, hfits]
  · simp [FileSystem.read, hlocate, hfits]

theorem modifiedAt_source {loc : Location} {content : List UInt8} {time found : Int}
    (hloc : loc.IsNamed) (h : fs.get? loc = some (.file content time)) :
    fs.modifiedAt here loc.text = .ok found ↔ Fits ⟨.root, []⟩ loc ∧ time = found := by
  obtain ⟨hfits, hlocate⟩ | ⟨hfits, e, hlocate⟩ := locate_source here hloc h
  · simp [modifiedAt, hlocate, hfits, Tree.modified]
  · simp [modifiedAt, hlocate, hfits]

/-! ## Changes after which a path still resolves -/

/-- A change after which all that was there is still what it was, a file perhaps with other bytes.
-/
structure Extends (fs fs' : FileSystem) : Prop where
  keeps : Keeps fs.get? fs'.get?
  files : ∀ loc content time, fs.get? loc = some (.file content time) →
    ∃ content' time', fs'.get? loc = some (.file content' time')

theorem Extends.refl (fs : FileSystem) : Extends fs fs where
  keeps _ := ⟨id, fun _ => id⟩
  files _ content time h := ⟨content, time, h⟩

theorem Extends.trans {fs'' : FileSystem} (h : Extends fs fs') (h' : Extends fs' fs'') :
    Extends fs fs'' where
  keeps loc := ⟨fun hdir => (h'.keeps loc).1 ((h.keeps loc).1 hdir),
    fun target hlink => (h'.keeps loc).2 target ((h.keeps loc).2 target hlink)⟩
  files loc content time hfile := by
    obtain ⟨content', time', hfile'⟩ := h.files loc content time hfile
    exact h'.files loc content' time' hfile'

/-- What is no link stays and becomes none. -/
theorem Extends.exists_plain (h : Extends fs fs') {loc : Location} {n : Node}
    (hn : fs.get? loc = some n) (hlink : ∀ target, n ≠ .link target) :
    ∃ n', fs'.get? loc = some n' ∧ ∀ target, n' ≠ .link target := by
  cases n with
  | directory => exact ⟨_, (h.keeps loc).1 hn, nofun⟩
  | link target => exact absurd rfl (hlink target)
  | file content time =>
    obtain ⟨content', time', hfile⟩ := h.files loc content time hn
    exact ⟨_, hfile, nofun⟩

theorem Extends.exists_node (h : Extends fs fs') {loc : Location} {n : Node}
    (hn : fs.get? loc = some n) : ∃ n', fs'.get? loc = some n' := by
  cases n with
  | directory => exact ⟨_, (h.keeps loc).1 hn⟩
  | link target => exact ⟨_, (h.keeps loc).2 target hn⟩
  | file content time =>
    obtain ⟨content', time', hfile⟩ := h.files loc content time hn
    exact ⟨_, hfile⟩

theorem Extends.walk_eq (h : Extends fs fs') {purpose : Purpose} {budget : Nat}
    {loc dest : Location}
    {names : List Text} (hwalk : walk fs.get? purpose budget loc names = .ok dest)
    (hdest : fs.get? dest ≠ none) : walk fs'.get? purpose budget loc names = .ok dest := by
  fun_induction walk fs.get? purpose budget loc names with
  | case1 =>
    rw [walk]
    exact hwalk
  | case2 budget loc name rest hloc hname ih =>
    rw [walk, if_pos ((h.keeps _).1 hloc), if_pos hname]
    exact ih hwalk
  | case3 budget loc rest hloc hname ih =>
    rw [walk, if_pos ((h.keeps _).1 hloc), if_neg hname, if_pos rfl]
    exact ih hwalk
  | case6 budget loc name hloc hname hup hlong hnone =>
    cases hwalk
    exact absurd hnone hdest
  | case8 budget loc name rest hloc hname hup hslash hlong target hlink hlast =>
    rw [walk, if_pos ((h.keeps _).1 hloc), if_neg hname, if_neg hup, if_neg hslash, if_neg hlong,
      (h.keeps _).2 target hlink]
    simp only [hlast, if_true]
    exact hwalk
  | case10 loc name rest hloc hname hup hslash hlong target hlink hlast budget ih =>
    rw [walk, if_pos ((h.keeps _).1 hloc), if_neg hname, if_neg hup, if_neg hslash, if_neg hlong,
      (h.keeps _).2 target hlink]
    simp only [hlast]
    exact ih hwalk
  | case11 budget loc name rest hloc hname hup hslash hlong n hlink hnode ih =>
    obtain ⟨n', hnode', hlink'⟩ := h.exists_plain hnode hlink
    rw [walk, if_pos ((h.keeps _).1 hloc), if_neg hname, if_neg hup, if_neg hslash, if_neg hlong,
      hnode']
    cases n' with
    | link target => exact absurd rfl (hlink' target)
    | file | directory => exact ih hwalk
  | _ => cases hwalk

/-- What is found at the end of a path is still found there. -/
theorem Extends.exists_find (h : Extends fs fs') {purpose : Purpose} {text : Text} {loc : Location}
    {tree : Tree} (hfind : fs.find here purpose text = .ok (loc, tree)) :
    ∃ tree', fs'.find here purpose text = .ok (loc, tree') ∧ fs'.get? loc = some tree'.node := by
  have hpresent := locate_of_find hfind
  have hnode := get?_of_find hfind
  obtain ⟨gone, hlocate⟩ | ⟨e, -, hlocate⟩ | ⟨names, -, hlocate⟩ := locate_cases here purpose text
  · simp [hlocate] at hpresent
  · simp [hlocate] at hpresent
  · have hwalk : walk fs.get? purpose maxLinks [] names = .ok loc := by
      rw [hlocate] at hpresent
      exact eq_ok_of_present hpresent
    obtain ⟨n, hn⟩ : ∃ n, fs'.get? loc = some n := h.exists_node hnode
    obtain ⟨tree', rfl, htree, htarget⟩ := targetAt_eq_present hn
    refine ⟨tree', ?_, hn⟩
    rw [find, hlocate, h.walk_eq hwalk (by simp [hnode])]
    simp [Except.map, Except.mapError, htarget]

theorem Extends.findsPlain (h : Extends fs fs') {p : Path} (hp : fs.FindsPlain here p) :
    fs'.FindsPlain here p := by
  obtain ⟨loc, tree, hfind, hplain⟩ := hp
  obtain ⟨tree', hfind', hnode'⟩ := h.exists_find hfind
  have hnode := get?_of_find hfind
  refine ⟨loc, tree', hfind', ?_⟩
  rintro target rfl
  obtain ⟨n, hn, hlink⟩ := h.exists_plain hnode fun target heq =>
    hplain target (by cases tree <;> simp_all [Tree.node])
  exact hlink target (Option.some.inj (hn.symm.trans hnode'))

theorem Extends.find_link (h : Extends fs fs') {text target : Text} {loc : Location}
    (hfind : fs.find here .entry text = .ok (loc, .link target)) :
    fs'.find here .entry text = .ok (loc, .link target) := by
  obtain ⟨tree, hfind', hnode⟩ := h.exists_find hfind
  have hlink := (h.keeps loc).2 target (get?_of_find hfind)
  cases tree <;> simp_all [Tree.node]

theorem Extends.resolves (h : Extends fs fs') {depth : Nat} {links links' : KnownLinks} {p q : Path}
    {names : List Text} (hp : fs.Resolves here depth links p names q links') :
    fs'.Resolves here depth links p names q links' := by
  induction hp with
  | done => exact .done
  | stay hname _ ih => exact .stay hname ih
  | up _ ih => exact .up ih
  | down hname hfind _ ih => exact .down hname (h.findsPlain hfind) ih
  | known hname hfind hknown _ ih => exact .known hname (h.find_link hfind) hknown ih
  | link hname hfind hnew _ _ ih₁ ih => exact .link hname (h.find_link hfind) hnew ih₁ ih

/-- A path that can be resolved still can, with the same outcome. -/
theorem Extends.resolve (h : Extends fs fs') {p q : Path} (hp : fs.resolve here true p = .ok q) :
    fs'.resolve here true p = .ok q := by
  obtain ⟨r, links, hresolves, habsolute⟩ := resolve_eq_ok_iff.1 hp
  exact resolve_eq_ok_iff.2 ⟨r, links, h.resolves hresolves, habsolute⟩

end TagsFile.FileSystem
