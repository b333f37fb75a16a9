import TagsFile.Proofs.Coverage
import TagsFile.Proofs.Layout

/-!
# Words that name members

A word that can introduce a declaration is a name where it follows `::`, `->` or `?->`. A flattening
tells this by the last leaf that is not layout, which it remembers. The last token that is not
layout may be another one, for what lies between leaves becomes tokens too, but then that token is
no punctuation.

## Main definitions

* `TokenKind.isDeclaringWord`: the kinds of words that can introduce a declaration.
* `lastToken?`: the last token that is not layout.
* `Flattening.Remembers`: how the leaf that is remembered and the last token go together.

## Main statements

* `tokenize_names_members`: none of these words follows an access to a member.
-/

namespace TagsFile

/-- Holds of the words that can introduce a declaration. -/
def TokenKind.isDeclaringWord : TokenKind → Bool
  | .namespaceWord | .classWord | .interfaceWord | .functionWord | .constWord | .publicWord
  | .protectedWord | .privateWord | .varWord => true
  | _ => false

theorem kind_of_accessesMember {t : Token} (h : t.accessesMember = true) : t.kind = .symbol := by
  rw [Token.accessesMember, Bool.or_eq_true, Bool.or_eq_true] at h
  obtain (h | h) | h := h <;> exact Cursor.kind_of_isSymbol h

/-! ## The last token -/

/-- The last token that is not layout. -/
def lastToken? (ts : List Token) : Option Token := (withoutLayout ts).getLast?

theorem lastToken?_concat (ts : List Token) (t : Token) :
    lastToken? (ts ++ [t]) = if t.kind.isLayout then lastToken? ts else some t := by
  cases h : t.kind.isLayout <;> simp [lastToken?, withoutLayout, h]

theorem lastToken?_append_layout (ts : List Token) {layout : List Token}
    (h : ∀ t ∈ layout, t.kind.isLayout = true) : lastToken? (ts ++ layout) = lastToken? ts := by
  have hnone : withoutLayout layout = [] := by simpa [withoutLayout] using h
  rw [lastToken?, withoutLayout, List.filter_append, ← withoutLayout, ← withoutLayout, hnone,
    List.append_nil, lastToken?]

/-! ## Leaves -/

theorem isDeclaringWord_atomicKind? {type : String} {kind : TokenKind}
    (h : atomicKind? type = some kind) : kind.isDeclaringWord = false := by
  unfold atomicKind? at h
  split at h <;> cases h <;> rfl

theorem isDeclaringWord_plainKind (leaf : Leaf) (text : Text) :
    (leaf.plainKind text).isDeclaringWord = false := by
  unfold Leaf.plainKind
  repeat' split
  all_goals rfl

/-- A leaf is taken for a declaring word only if what is remembered accesses no member. -/
theorem accessesMember_of_classify {leaf : Leaf} {text : Text} {previous : Option Token}
    (h : (classify leaf text previous).isDeclaringWord = true) :
    previous.any Token.accessesMember = false := by
  unfold classify at h
  split at h
  · rename_i kind hkind
    rw [isDeclaringWord_atomicKind? hkind] at h
    cases h
  · split at h
    · split at h
      · split at h
        · cases h
        · rename_i hany
          simpa using hany
      · rw [isDeclaringWord_plainKind] at h
        cases h
    · rw [isDeclaringWord_plainKind] at h
      cases h

/-! ## Flattening -/

namespace Flattening

/-- An access to a member that is the last token is the leaf that is remembered, and no declaring
word follows one. -/
structure Remembers (f : Flattening) : Prop where
  access : ∀ t, lastToken? f.tokens.toList = some t → t.accessesMember = true →
    f.previous = some t
  words : ∀ before word, before ++ [word] <+: f.tokens.toList → word.kind.isDeclaringWord = true →
    ∀ t, lastToken? before = some t → t.accessesMember = false

variable {f : Flattening}

/-- What is remembered may be anything but for three kinds of tokens: layout leaves it as it is,
punctuation is remembered, and before a word it must be no access. -/
theorem Remembers.emit (h : f.Remembers) {kind : TokenKind} {n : Nat} {previous : Option Token}
    (hlayout : kind.isLayout = true → previous = f.previous)
    (hsymbol : kind = .symbol → previous = some ⟨kind, f.peek n, f.line⟩)
    (hword : kind.isDeclaringWord = true → f.previous.any Token.accessesMember = false) :
    Remembers { f.emit kind n with previous } where
  access t ht haccess := by
    simp only [Flattening.emit, Array.toList_push, lastToken?_concat] at ht ⊢
    split at ht
    · rename_i hkind
      exact (hlayout hkind).trans (h.access t ht haccess)
    · cases ht
      exact hsymbol (kind_of_accessesMember haccess)
  words before word hprefix hkind t ht := by
    simp only [Flattening.emit, Array.toList_push] at hprefix
    obtain heq | hprefix := List.prefix_concat_iff.1 hprefix
    · obtain ⟨rfl, hlast⟩ := List.append_inj' heq rfl
      obtain rfl := List.singleton_inj.1 hlast
      have hprevious := hword hkind
      by_contra haccess
      rw [Bool.not_eq_false] at haccess
      rw [h.access t ht haccess, Option.any_some, haccess] at hprevious
      cases hprevious
    · exact h.words before word hprefix hkind t ht

/-- What lies before a leaf is no punctuation. -/
theorem Remembers.emitGap (h : f.Remembers) (start : Nat) : (f.emitGap start).Remembers := by
  rw [Flattening.emitGap]
  split
  · exact ⟨h.access, h.words⟩
  · refine @Remembers.emit f h _ _ f.previous (fun _ => rfl) ?_ ?_
    all_goals
      intro hkind
      split at hkind <;> cases hkind

theorem Remembers.emitLeaf (h : f.Remembers) (leaf : Leaf) (start stop : Nat) :
    (f.emitLeaf leaf start stop).Remembers := by
  refine (h.emitGap start).emit (fun hlayout => if_pos hlayout) (fun hsymbol => ?_)
    accessesMember_of_classify
  rw [if_neg (by simp [hsymbol, TokenKind.isLayout])]

theorem remembers_flatten {pending : List Visit} (h : f.Remembers) :
    (flatten pending f).Remembers := by
  fun_induction flatten pending f with
  | case1 => exact h
  | case2 f v pending hskip ih => exact ih h
  | case3 f v pending hskip hinner ih => exact ih h
  | case4 f v pending hskip hinner ih => exact ih (h.emitLeaf ..)

end Flattening

/-- A word that names a member declares nothing: in the tokens of a source, whatever its tree is, no
word that can introduce a declaration comes behind an access to a member and layout. -/
theorem tokenize_names_members {source : List UInt8} {tree : SyntaxTree}
    {before layout after : List Token} {access word : Token}
    (h : tokenize source tree = before ++ access :: (layout ++ word :: after))
    (hlayout : ∀ t ∈ layout, t.kind.isLayout = true)
    (hword : word.kind.isDeclaringWord = true) : access.accessesMember = false := by
  have hstart : Flattening.Remembers { rest := source } := ⟨by simp [lastToken?, withoutLayout],
    by simp⟩
  have hfinish : (flatten [⟨tree, false, none⟩] { rest := source }).finish.Remembers :=
    (Flattening.remembers_flatten hstart).emitGap _
  have hprefix : before ++ [access] ++ layout ++ [word] <+: tokenize source tree :=
    ⟨after, by simp [h]⟩
  cases hkind : access.kind.isLayout with
  | true =>
    -- layout is no punctuation
    by_contra haccess
    rw [Bool.not_eq_false] at haccess
    rw [kind_of_accessesMember haccess] at hkind
    cases hkind
  | false =>
    apply hfinish.words _ word hprefix hword
    rw [lastToken?_append_layout _ hlayout, lastToken?_concat, hkind]
    rfl

/-- A class whose name is fetched by `A::class`, and the heading of another one behind a comment. -/
def fetchAndHeading : SyntaxTree :=
  .node "program" true 0 18 [.node "name" true 0 1 [], .node "::" false 1 3 [],
    .node "class" false 3 8 [], .node ";" false 8 9 [], .node "comment" true 9 13 [],
    .node "class" false 13 18 []]

theorem tokenize_names_members_fetchAndHeading :
    tokenize (Text.Utf8.encode "A::class;/**/class") fetchAndHeading =
        [⟨.name, "A", 1⟩, ⟨.symbol, "::", 1⟩, ⟨.name, "class", 1⟩] ++ ⟨.symbol, ";", 1⟩ ::
          ([⟨.comment, "/**/", 1⟩] ++ ⟨.classWord, "class", 1⟩ :: []) ∧
      (Token.mk .symbol ";" 1).accessesMember = false := by
  have htokens : tokenize (Text.Utf8.encode "A::class;/**/class") fetchAndHeading =
      [⟨.name, "A", 1⟩, ⟨.symbol, "::", 1⟩, ⟨.name, "class", 1⟩] ++ ⟨.symbol, ";", 1⟩ ::
        ([⟨.comment, "/**/", 1⟩] ++ ⟨.classWord, "class", 1⟩ :: []) := by
    decide +kernel
  exact ⟨htokens, tokenize_names_members htokens (by decide) rfl⟩

end TagsFile
