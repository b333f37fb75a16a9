import TagsFile.Proofs.Flattening
import TagsFile.Proofs.Utf8

/-!
# Tokens cover their source

The tokens of a source are the decoded pieces of a division of its bytes, whatever tree they are
taken from. The pieces are cut at offsets of nodes, so none of them is empty if all offsets lie
inside of the source, and no character is lost if all offsets lie between characters.

## Main definitions

* `Flattening.Covers`: how the tokens so far and the bytes to come make up the source.
-/

namespace TagsFile

open Text.Utf8

/-- The text of some bytes, with U+FFFD for what is ill-formed. -/
def lossyText (bytes : List UInt8) : Text := (decodeLossy bytes).map .char

namespace Flattening

/-- The tokens so far are the texts of `slices`, and with the bytes to come these are the source. -/
structure Covers (source : List UInt8) (f : Flattening) (slices : List (List UInt8)) : Prop where
  bytes : slices.flatten ++ f.rest = source
  rest_eq : f.rest = source.drop f.position
  texts : f.tokens.toList.map Token.text = slices.map lossyText

/-- Moving to an offset makes a token of the bytes on the way, unless there are none. -/
theorem emitGap_cases (f : Flattening) (start : Nat) :
    (f.rest.take (start - f.position) = [] ∧ f.emitGap start = { f with position := start }) ∨
      ∃ kind, f.rest.take (start - f.position) ≠ [] ∧
        f.emitGap start = f.emit kind (start - f.position) := by
  rw [emitGap]
  split
  · exact .inl ⟨by assumption, rfl⟩
  · exact .inr ⟨_, by assumption, rfl⟩

/-- The bytes to come are those from the position on, also after a move. -/
theorem rest_emitGap {source : List UInt8} {f : Flattening} (h : f.rest = source.drop f.position)
    {start : Nat} (hle : f.position ≤ start) : (f.emitGap start).rest = source.drop start := by
  have hadd : f.position + (start - f.position) = start := by omega
  have hdrop : source.drop start = f.rest.drop (start - f.position) := by
    rw [h, List.drop_drop, hadd]
  obtain ⟨hnil, heq⟩ | ⟨kind, -, heq⟩ := emitGap_cases f start <;> rw [heq, hdrop]
  · simpa [hnil] using (List.take_append_drop (start - f.position) f.rest).symm
  · rfl

theorem Covers.emit {source : List UInt8} {f : Flattening} {slices : List (List UInt8)}
    (h : Covers source f slices) (kind : TokenKind) (n : Nat) (previous : Option Token) :
    Covers source { f.emit kind n with previous } (slices ++ [f.rest.take n]) where
  bytes := by simpa [Flattening.emit] using h.bytes
  rest_eq := by simp [Flattening.emit, h.rest_eq]
  texts := by simp [Flattening.emit, h.texts, peek, lossyText]

theorem Covers.emitGap {source : List UInt8} {f : Flattening} {slices : List (List UInt8)}
    (h : Covers source f slices) {start : Nat} (hle : f.position ≤ start) :
    ∃ more, Covers source (f.emitGap start) (slices ++ more) ∧ ∀ s ∈ more, s ≠ [] := by
  obtain ⟨hnil, heq⟩ | ⟨kind, hne, heq⟩ := emitGap_cases f start <;> rw [heq]
  · have hrest := rest_emitGap h.rest_eq hle
    rw [heq] at hrest
    exact ⟨[], ⟨by simpa using h.bytes, hrest, by simpa using h.texts⟩, by simp⟩
  · exact ⟨[f.rest.take (start - f.position)], h.emit kind _ f.previous, by simpa using hne⟩

/-- Nothing is left to come at the end. -/
theorem Covers.finish {source : List UInt8} {f : Flattening} {slices : List (List UInt8)}
    (h : Covers source f slices) : ∃ more, Covers source f.finish (slices ++ more) ∧
      (slices ++ more).flatten = source ∧ ∀ s ∈ more, s ≠ [] := by
  have hle : f.position ≤ f.position + f.rest.length := by omega
  obtain ⟨more, hcovers, hne⟩ := h.emitGap hle
  refine ⟨more, hcovers, ?_, hne⟩
  have hrest : (f.emitGap (f.position + f.rest.length)).rest = [] := by
    rw [rest_emitGap h.rest_eq hle, ← List.drop_drop, ← h.rest_eq, List.drop_length]
  simpa [hrest] using hcovers.bytes

/-! ## Sources of whole characters -/

/-- The tokens so far hold characters of the source, and the bytes to come encode the others. -/
def Spells (cs : List Char) (f : Flattening) : Prop :=
  f.rest = (bytesOf cs).drop f.position ∧ ∃ as bs, cs = as ++ bs ∧ f.rest = bytesOf bs ∧
    (f.tokens.toList.map Token.text).flatten = as.map .char

theorem Spells.emit {cs : List Char} {f : Flattening} (h : Spells cs f) (kind : TokenKind)
    {stop : Nat} (hle : f.position ≤ stop) (hstop : isBoundary (bytesOf cs) stop)
    (previous : Option Token) :
    Spells cs { f.emit kind (stop - f.position) with previous } := by
  obtain ⟨hrest, as, bs, hcs, hbs, htexts⟩ := h
  have hbound : isBoundary (bytesOf bs) (stop - f.position) := by
    rwa [← hbs, hrest, isBoundary_drop, Nat.add_sub_cancel' hle]
  obtain ⟨as', bs', hsplit, htake, hdrop⟩ := exists_split_of_isBoundary hbound
  refine ⟨by simp [Flattening.emit, hrest], as ++ as', bs', by simp [hcs, hsplit], ?_, ?_⟩
  · simp [Flattening.emit, hbs, hdrop]
  · simp [Flattening.emit, htexts, peek, hbs, htake]

theorem Spells.emitGap {cs : List Char} {f : Flattening} (h : Spells cs f) {start : Nat}
    (hle : f.position ≤ start) (hstart : isBoundary (bytesOf cs) start) :
    Spells cs (f.emitGap start) := by
  obtain ⟨hnil, heq⟩ | ⟨kind, -, heq⟩ := emitGap_cases f start <;> rw [heq]
  · have hrest := rest_emitGap h.1 hle
    rw [heq] at hrest
    exact ⟨hrest, h.2⟩
  · exact h.emit kind hle hstart f.previous

theorem Spells.finish {cs : List Char} {f : Flattening} (h : Spells cs f) :
    (f.finish.tokens.toList.map Token.text).flatten = cs.map .char := by
  have hle : f.position ≤ f.position + f.rest.length := by omega
  have hend : isBoundary (bytesOf cs) (f.position + f.rest.length) :=
    isBoundary_of_length_le (by rw [h.1, List.length_drop]; omega)
  obtain ⟨-, as, bs, hcs, hbs, htexts⟩ := h.emitGap hle hend
  have hrest := rest_emitGap h.1 hle
  rw [← List.drop_drop, ← h.1, List.drop_length, hbs] at hrest
  -- no character is left when no byte is
  have hnil : bs = [] := by simpa [hrest, decodeLossy] using (decodeLossy_bytesOf bs).symm
  rw [Flattening.finish, htexts, hcs, hnil, List.append_nil]

end Flattening

/-! ## Whole sources -/

theorem exists_covers_flatten (source : List UInt8) (tree : SyntaxTree) :
    ∃ slices, (flatten [⟨tree, false, none⟩] { rest := source }).Covers source slices ∧
      ((∀ k ∈ tree.offsets, k ≤ source.length) → ∀ s ∈ slices, s ≠ []) := by
  let kept (f : Flattening) : Prop := ∃ slices, f.Covers source slices ∧
    ((∀ k ∈ tree.offsets, k ≤ source.length) → ∀ s ∈ slices, s ≠ [])
  refine Flattening.flatten_keeps kept (· ∈ tree.offsets) ?_ ?_ ?_ ?_
  · rintro f start - hle ⟨slices, hcovers, hslices⟩
    obtain ⟨more, hmore, hne⟩ := hcovers.emitGap hle
    refine ⟨slices ++ more, hmore, fun hin s hs => ?_⟩
    exact (List.mem_append.1 hs).elim (hslices hin s) (hne s)
  · rintro f kind stop previous hstop hlt ⟨slices, hcovers, hslices⟩
    refine ⟨_, hcovers.emit kind (stop - f.position) previous, fun hin s hs => ?_⟩
    rcases List.mem_append.1 hs with hs | hs
    · exact hslices hin s hs
    · -- the bytes from the position to an offset inside of the source
      have hle : stop ≤ source.length := by exact_mod_cast hin _ hstop
      rw [List.mem_singleton.1 hs, hcovers.rest_eq]
      refine List.ne_nil_of_length_pos ?_
      rw [List.length_take, List.length_drop]
      omega
  · intro k hk
    simpa [pendingOffsets, SyntaxTree.offsetsAll] using hk
  · exact ⟨[], ⟨rfl, rfl, rfl⟩, by simp⟩

theorem spells_flatten {cs : List Char} {tree : SyntaxTree}
    (offsets : ∀ k ∈ tree.offsets, isBoundary (bytesOf cs) k.toNat) :
    (flatten [⟨tree, false, none⟩] { rest := bytesOf cs }).Spells cs := by
  refine Flattening.flatten_keeps _ (fun k => isBoundary (bytesOf cs) k.toNat) ?_ ?_ ?_ ?_
  · exact fun f start hstart hle h => h.emitGap hle hstart
  · exact fun f kind stop previous hstop hlt h => h.emit kind (Nat.le_of_lt hlt) hstop previous
  · intro k hk
    exact offsets k (by simpa [pendingOffsets, SyntaxTree.offsetsAll] using hk)
  · exact ⟨rfl, [], cs, rfl, rfl, rfl⟩

/-- The tokens of a source are the texts of consecutive slices that make up the source. No slice is
empty if all offsets lie in the source; and if the source encodes a string and is cut only between
characters, the tokens spell that string. -/
theorem tokenize_covers_source (source : List UInt8) (tree : SyntaxTree) :
    (∃ slices : List (List UInt8), slices.flatten = source ∧
      (tokenize source tree).map Token.text = slices.map lossyText ∧
      ((∀ k ∈ tree.offsets, k ≤ source.length) → ∀ s ∈ slices, s ≠ [])) ∧
    ∀ s : String, source = encode s → (∀ k ∈ tree.offsets, isBoundary source k.toNat) →
      ((tokenize source tree).map Token.text).flatten = Text.ofString s := by
  constructor
  · obtain ⟨slices, hcovers, hslices⟩ := exists_covers_flatten source tree
    obtain ⟨more, hmore, hflatten, hne⟩ := hcovers.finish
    refine ⟨slices ++ more, hflatten, hmore.texts, fun hin s hs => ?_⟩
    exact (List.mem_append.1 hs).elim (hslices hin s) (hne s)
  · rintro s rfl offsets
    exact (spells_flatten offsets).finish

/-- A tree over three bytes whose second leaf starts inside of what the first one covers. -/
def overlappingLeaves : SyntaxTree :=
  .node "program" true 0 3 [.node "a" false 0 1 [], .node "b" false 0 3 [], .node "c" true 1 3 []]

theorem tokenize_covers_source_overlappingLeaves :
    (∀ k ∈ overlappingLeaves.offsets, k ≤ (encode "aé").length) ∧
    (∀ k ∈ overlappingLeaves.offsets, isBoundary (encode "aé") k.toNat) ∧
    (∃ slices : List (List UInt8), slices.flatten = encode "aé" ∧
      (tokenize (encode "aé") overlappingLeaves).map Token.text = slices.map lossyText ∧
      ∀ s ∈ slices, s ≠ []) ∧
    ((tokenize (encode "aé") overlappingLeaves).map Token.text).flatten = Text.ofString "aé" := by
  have inside : ∀ k ∈ overlappingLeaves.offsets, k ≤ (encode "aé").length := by decide +kernel
  have between : ∀ k ∈ overlappingLeaves.offsets, isBoundary (encode "aé") k.toNat := by
    decide +kernel
  obtain ⟨⟨slices, hflatten, htexts, hne⟩, hspell⟩ :=
    tokenize_covers_source (encode "aé") overlappingLeaves
  exact ⟨inside, between, ⟨slices, hflatten, htexts, hne inside⟩, hspell "aé" rfl between⟩

end TagsFile
