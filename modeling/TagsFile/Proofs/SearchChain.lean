import TagsFile.Proofs.Nesting

/-!
# Chains of searches

An editor reads a search pattern up to the first slash that no backslash escapes, and goes on with
another search if a semicolon and a slash follow. A search command holds the patterns of the scopes
around a declaration as such a chain. Slashes are not escaped: the editor reads the patterns that
were put together exactly if none of them holds a slash of its own.

## Main definitions

* `cutAtBare`: a text before and behind its first bare slash, one that no backslash escapes.
* `barePieces`: a text between its bare slashes.
* `readChain`: the patterns that an editor reads from a chain of searches.

## Main statements

* `searchCommand_delimits`: when the patterns in a search command are the ones that are read.
-/

namespace TagsFile

open Tag

/-! ## Bare slashes -/

/-- What stands before the first bare slash, and what stands behind it if there is one. -/
def cutAtBare : Text → Text × Option Text
  | [] => ([], none)
  | [c] => if c = .char '/' then ([], some []) else ([c], none)
  | c :: d :: t =>
    if c = .char '/' then ([], some (d :: t))
    else if c = .char '\\' then (cutAtBare t).map (c :: d :: ·) id
    else (cutAtBare (d :: t)).map (c :: ·) id

@[simp] theorem cutAtBare_slash (t : Text) : cutAtBare (.char '/' :: t) = ([], some t) := by
  cases t <;> rw [cutAtBare, if_pos rfl]

@[simp] theorem cutAtBare_backslash (c : CodePoint) (t : Text) :
    cutAtBare (.char '\\' :: c :: t) = (cutAtBare t).map (.char '\\' :: c :: ·) id := by
  rw [cutAtBare, if_neg (by decide), if_pos rfl]

theorem cutAtBare_cons {c : CodePoint} (hslash : c ≠ .char '/') (hback : c ≠ .char '\\')
    (t : Text) : cutAtBare (c :: t) = (cutAtBare t).map (c :: ·) id := by
  cases t with
  | nil => simp [cutAtBare, hslash]
  | cons d t => rw [cutAtBare, if_neg hslash, if_neg hback]

theorem length_cutAtBare {t p rest : Text} (h : cutAtBare t = (p, some rest)) :
    rest.length < t.length := by
  fun_induction cutAtBare t generalizing p <;> grind [Prod.map]

/-- No bare slash stands before the first one. -/
theorem cutAtBare_of_eq {t p : Text} {rest : Option Text} (h : cutAtBare t = (p, rest)) :
    cutAtBare p = (p, none) := by
  have hfst : cutAtBare (cutAtBare t).1 = ((cutAtBare t).1, none) := by
    clear h
    fun_induction cutAtBare t with
    | case1 => rfl
    | case2 => rfl
    | case3 c hslash => simp [cutAtBare, hslash]
    | case4 => rfl
    | case5 d t _ ih => simp [ih]
    | case6 c d t hslash hback ih => simp [cutAtBare_cons hslash hback, ih]
  rwa [h] at hfst

/-- The escape of a pattern without slashes has no bare one, and escapes nothing of what follows. -/
theorem cutAtBare_escapePattern_append {p : Text} (h : .char '/' ∉ p) (t : Text) :
    cutAtBare (escapePattern p ++ t) = (cutAtBare t).map (escapePattern p ++ ·) id := by
  induction p with
  | nil => rfl
  | cons c p ih =>
    rw [List.mem_cons, not_or] at h
    rw [escapePattern_cons, List.append_assoc]
    obtain ⟨heq, -⟩ | ⟨heq, -⟩ | ⟨heq, -, hback⟩ := escapePoint_cases c <;> rw [heq]
    · rw [List.cons_append, List.singleton_append, cutAtBare_backslash, ih h.2]
      rfl
    · rw [List.singleton_append, cutAtBare_cons (by decide) (by decide), ih h.2]
      rfl
    · rw [List.singleton_append, cutAtBare_cons (Ne.symm h.1) hback, ih h.2]
      rfl

theorem cutAtBare_escapePattern_slash {p : Text} (h : .char '/' ∉ p) (rest : Text) :
    cutAtBare (escapePattern p ++ .char '/' :: rest) = (escapePattern p, some rest) := by
  simp [cutAtBare_escapePattern_append h]

theorem cutAtBare_escapePattern_eq_self {p : Text} :
    cutAtBare (escapePattern p) = (escapePattern p, none) ↔ .char '/' ∉ p := by
  constructor
  · intro h hmem
    obtain ⟨a, b, rfl, ha⟩ := List.eq_append_cons_of_mem hmem
    have hslash : escapePoint (.char '/') = [.char '/'] := by decide
    rw [escapePattern_append, escapePattern_cons, hslash, List.singleton_append,
      cutAtBare_escapePattern_slash ha] at h
    simp at h
  · intro h
    simpa [cutAtBare] using cutAtBare_escapePattern_append h []

/-- The pieces of a text between its bare slashes. -/
def barePieces (t : Text) : List Text :=
  match _h : cutAtBare t with
  | (piece, none) => [piece]
  | (piece, some rest) => piece :: barePieces rest
termination_by t.length
decreasing_by exact length_cutAtBare _h

/-- Reads searches from behind the opening slash of the first one: their patterns and what follows
the closing slash of the last one, which is missing if no slash closes it. -/
def readChain (t : Text) : Option (List Text × Text) :=
  match _h : cutAtBare t with
  | (_, none) => none
  | (pattern, some (.char ';' :: .char '/' :: rest)) =>
    (readChain rest).map (.map (pattern :: ·) id)
  | (pattern, some rest) => some ([pattern], rest)
termination_by t.length
decreasing_by have := length_cutAtBare _h; grind

theorem barePieces_none {t piece : Text} (h : cutAtBare t = (piece, none)) :
    barePieces t = [piece] := by
  rw [barePieces]
  split <;> simp_all

theorem barePieces_some {t piece rest : Text} (h : cutAtBare t = (piece, some rest)) :
    barePieces t = piece :: barePieces rest := by
  rw [barePieces]
  split <;> simp_all

theorem readChain_more {t pattern rest : Text}
    (h : cutAtBare t = (pattern, some (.char ';' :: .char '/' :: rest))) :
    readChain t = (readChain rest).map (.map (pattern :: ·) id) := by
  rw [readChain]
  split <;> simp_all

theorem readChain_last {t pattern rest : Text} (h : cutAtBare t = (pattern, some rest))
    (hlast : ∀ more, rest ≠ .char ';' :: .char '/' :: more) :
    readChain t = some ([pattern], rest) := by
  rw [readChain]
  split <;> grind

theorem mem_barePieces {t piece : Text} (h : piece ∈ barePieces t) :
    cutAtBare piece = (piece, none) := by
  fun_induction barePieces t with
  | case1 t first hcut =>
    rw [List.mem_singleton.1 h]
    exact cutAtBare_of_eq hcut
  | case2 t first rest hcut ih =>
    rcases List.mem_cons.1 h with rfl | h
    · exact cutAtBare_of_eq hcut
    · exact ih h

theorem mem_readChain {t rest : Text} {patterns : List Text}
    (h : readChain t = some (patterns, rest)) {pattern : Text} (hmem : pattern ∈ patterns) :
    cutAtBare pattern = (pattern, none) := by
  fun_induction readChain t generalizing patterns with
  | case1 => cases h
  | case2 t first more hcut ih =>
    obtain ⟨⟨others, rest⟩, hothers, heq⟩ := Option.map_eq_some_iff.1 h
    cases heq
    rcases List.mem_cons.1 hmem with rfl | hmem
    · exact cutAtBare_of_eq hcut
    · exact ih hothers hmem
  | case3 t first more hlast hcut =>
    cases h
    rw [List.mem_singleton.1 hmem]
    exact cutAtBare_of_eq hcut

/-! ## Chains of patterns -/

theorem escapePattern_join_cons (p q : Text) (patterns : List Text) :
    escapePattern (Text.join "/;/" (p :: q :: patterns)) = escapePattern p ++
      .char '/' :: .char ';' :: .char '/' :: escapePattern (Text.join "/;/" (q :: patterns)) := by
  have hfixed : escapePattern "/;/" = [.char '/', .char ';', .char '/'] := by decide
  rw [Text.join_cons_cons, escapePattern_append, escapePattern_append, hfixed]
  simp

theorem barePieces_escapePattern_join {patterns : List Text} (hne : patterns ≠ [])
    (h : ∀ p ∈ patterns, .char '/' ∉ p) :
    barePieces (escapePattern (Text.join "/;/" patterns)) =
      (patterns.map escapePattern).intersperse [.char ';'] := by
  induction patterns with
  | nil => exact absurd rfl hne
  | cons p patterns ih =>
    have hp : .char '/' ∉ p := h p (by simp)
    cases patterns with
    | nil =>
      rw [Text.join_singleton]
      exact barePieces_none (cutAtBare_escapePattern_eq_self.2 hp)
    | cons q patterns =>
      have hsemicolon (t : Text) :
          cutAtBare (.char ';' :: .char '/' :: t) = ([.char ';'], some t) := by
        simp [cutAtBare_cons]
      rw [escapePattern_join_cons, barePieces_some (cutAtBare_escapePattern_slash hp _),
        barePieces_some (hsemicolon _), ih (by simp) fun r hr => h r (List.mem_cons_of_mem p hr)]
      rfl

theorem readChain_escapePattern_join {patterns : List Text} (hne : patterns ≠ [])
    (h : ∀ p ∈ patterns, .char '/' ∉ p) {rest : Text}
    (hlast : ∀ more, rest ≠ .char ';' :: .char '/' :: more) :
    readChain (escapePattern (Text.join "/;/" patterns) ++ .char '/' :: rest) =
      some (patterns.map escapePattern, rest) := by
  induction patterns with
  | nil => exact absurd rfl hne
  | cons p patterns ih =>
    have hp : .char '/' ∉ p := h p (by simp)
    cases patterns with
    | nil =>
      rw [Text.join_singleton, readChain_last (cutAtBare_escapePattern_slash hp _) hlast]
      rfl
    | cons q patterns =>
      rw [escapePattern_join_cons, List.append_assoc, List.cons_append, List.cons_append,
        List.cons_append, readChain_more (cutAtBare_escapePattern_slash hp _),
        ih (by simp) fun r hr => h r (List.mem_cons_of_mem p hr)]
      rfl

theorem subset_intersperse (separator : α) (as : List α) : as ⊆ as.intersperse separator := by
  fun_induction List.intersperse separator as <;> grind

/-- Between its fixed parts, a search command holds the patterns around a declaration and its own
one, escaped and with `/;/` between each two. Exactly if none of the patterns holds a slash, the
bare slashes there are those between the patterns, and an editor reads the patterns as they were
put together and then what follows the last slash of the chain. -/
theorem searchCommand_delimits (scopes : ScopeStack) (snippet : Text) :
    let patterns := scopes.filterMap ScopeFrame.pattern ++ [snippet]
    ∃ body, searchCommand (scopes.scopedPattern snippet) = commandStart ++ body ++ commandEnd ∧
      (barePieces body = (patterns.map escapePattern).intersperse [.char ';'] ↔
        ∀ p ∈ patterns, .char '/' ∉ p) ∧
      (readChain (body ++ commandEnd) =
          some (patterns.map escapePattern, Text.ofString "; | let @/=_s\";\"") ↔
        ∀ p ∈ patterns, .char '/' ∉ p) := by
  intro patterns
  refine ⟨escapePattern (scopes.scopedPattern snippet), rfl, ⟨?_, ?_⟩, ?_, ?_⟩
  · intro h p hp
    have hpiece : escapePattern p ∈ barePieces (escapePattern (scopes.scopedPattern snippet)) := by
      rw [h]
      exact subset_intersperse _ _ (List.mem_map_of_mem hp)
    exact cutAtBare_escapePattern_eq_self.1 (mem_barePieces hpiece)
  · exact barePieces_escapePattern_join (by simp [patterns])
  · intro h p hp
    exact cutAtBare_escapePattern_eq_self.1 (mem_readChain h (List.mem_map_of_mem hp))
  · intro h
    exact readChain_escapePattern_join (by simp [patterns]) h (by rintro more ⟨⟩)

/-- A comment before the name of a class ends the search for the class. -/
example : readChain ((searchCommand "class /* */ A").drop commandStart.length) =
    some ([Text.ofString "class "], Text.ofString "* */ A/; | let @/=_s\";\"") := by
  cbv

end TagsFile
