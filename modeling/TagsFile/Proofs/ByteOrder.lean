import TagsFile.Proofs.SortedLines
import TagsFile.Proofs.Utf8

/-!
# The order of bytes

UTF-8 keeps the order of texts: what comes first by its code points comes first by its bytes. So an
editor that searches a tags file by its bytes finds the lines in the order in which they were
sorted.

## Main definitions

* `Text.points`, `Text.utf8?`: the code points of a text as numbers, and its bytes.
* `Text.Ascending`: texts in ascending order by both.

## Main statements

* `Text.le_utf8?_iff`: the two orders are one.
-/

namespace TagsFile.Text

/-! ## Characters -/

namespace Utf8

theorem cons_lt_cons_ofNat {m n : Nat} (hm : m < 256) (hn : n < 256) (xs ys : List UInt8) :
    UInt8.ofNat m :: xs < UInt8.ofNat n :: ys ↔ m < n ∨ m = n ∧ xs < ys := by
  simp only [List.cons_lt_cons_iff, UInt8.lt_iff_toNat_lt, ← UInt8.toNat_inj, toNat_ofNat_of_lt hm,
    toNat_ofNat_of_lt hn]

/-- The bytes of a smaller character come first, whatever follows them. -/
theorem utf8EncodeChar_append_lt {c d : Char} (h : c.toNat < d.toNat) (xs ys : List UInt8) :
    String.utf8EncodeChar c ++ xs < String.utf8EncodeChar d ++ ys := by
  have hc : c.val.toNat = c.toNat := rfl
  have hd : d.val.toNat = d.toNat := rfl
  have hvalid : d.toNat < 0xD800 ∨ 0xDFFF < d.toNat ∧ d.toNat < 0x110000 := d.valid
  rw [String.utf8EncodeChar, String.utf8EncodeChar, hc, hd]
  generalize c.toNat = m at *
  generalize d.toNat = n at *
  -- a longer code starts with a larger byte; codes of one length are compared digit by digit
  have hdigits (k : Nat) : k / 4096 = k / 64 / 64 ∧ k / 262144 = k / 64 / 64 / 64 := by omega
  rw [(hdigits m).1, (hdigits m).2, (hdigits n).1, (hdigits n).2]
  repeat' split
  all_goals try omega
  all_goals
    simp (disch := omega) only [List.cons_append, List.nil_append, cons_lt_cons_ofNat]
    omega

theorem bytesOf_lt {cs ds : List Char} (h : cs.map Char.toNat < ds.map Char.toNat) :
    bytesOf cs < bytesOf ds := by
  induction cs generalizing ds with
  | nil =>
    cases ds with
    | nil => exact absurd h (List.lt_irrefl _)
    | cons d ds =>
      obtain ⟨b, bs, hd, -⟩ := utf8EncodeChar_cases d
      rw [bytesOf_cons, hd]
      exact List.nil_lt_cons ..
  | cons c cs ih =>
    cases ds with
    | nil => exact absurd h (List.not_lt_nil _)
    | cons d ds =>
      obtain hlt | ⟨heq, hrest⟩ := List.cons_lt_cons_iff.1 h
      · exact utf8EncodeChar_append_lt hlt _ _
      · obtain rfl : c = d := Char.toNat_inj.1 heq
        exact List.append_left_lt (ih hrest)

theorem bytesOf_le_iff {cs ds : List Char} :
    List.le (bytesOf cs) (bytesOf ds) ↔
      List.le (cs.map Char.toNat) (ds.map Char.toNat) := by
  constructor
  · intro h hlt
    exact h (bytesOf_lt hlt)
  · intro h
    obtain hlt | heq := List.le_iff_lt_or_eq.1 h
    · exact List.le_of_lt (bytesOf_lt hlt)
    · obtain rfl := (List.map_inj_right fun _ _ => Char.toNat_inj.1).1 heq
      exact List.le_refl _

end Utf8

/-! ## Texts -/

/-- The numbers of the code points. -/
def points (t : Text) : List Nat := t.map CodePoint.toNat

/-- The bytes of a text, if all of it are characters. -/
def utf8? (t : Text) : Option (List UInt8) := t.toString?.map Utf8.encode

theorem utf8?_eq_some {t : Text} {bytes : List UInt8} (h : t.utf8? = some bytes) :
    ∃ cs : List Char, t = cs.map .char ∧ bytes = Utf8.bytesOf cs := by
  obtain ⟨s, hs, rfl⟩ := Option.map_eq_some_iff.1 h
  obtain ⟨cs, hcs, rfl⟩ := Option.map_eq_some_iff.1 hs
  refine ⟨cs, ?_, by simp [Utf8.encode_eq_bytesOf]⟩
  clear h hs
  induction t generalizing cs with
  | nil => simp_all
  | cons c t ih =>
    cases c with
    | surrogate n => simp [CodePoint.char?] at hcs
    | char c =>
      simp only [List.mapM_cons, CodePoint.char?, Option.pure_def, Option.bind_eq_bind,
        Option.bind_some, Option.bind_eq_some_iff, Option.some.injEq] at hcs
      obtain ⟨ds, hds, rfl⟩ := hcs
      rw [ih ds hds, List.map_cons]

/-- The order by bytes is the order by code points. -/
theorem le_utf8?_iff {a b : Text} {x y : List UInt8} (hx : a.utf8? = some x)
    (hy : b.utf8? = some y) : List.le x y ↔ List.le a.points b.points := by
  obtain ⟨cs, rfl, rfl⟩ := utf8?_eq_some hx
  obtain ⟨ds, rfl, rfl⟩ := utf8?_eq_some hy
  simpa [points, Function.comp_def, CodePoint.toNat] using Utf8.bytesOf_le_iff

theorem le_iff_points {a b : Text} : le a b = true ↔ List.le a.points b.points := by
  induction a generalizing b with
  | nil => exact iff_of_true rfl (List.nil_le _)
  | cons c a ih =>
    cases b with
    | nil => exact iff_of_false (by simp [le]) fun h => h (List.nil_lt_cons ..)
    | cons d b =>
      refine Iff.trans ?_ List.cons_le_cons_iff.symm
      rw [le]
      by_cases heq : c = d
      · subst heq
        rw [if_pos rfl, ih]
        exact ⟨fun h => .inr ⟨rfl, h⟩, fun h => (h.resolve_left (Nat.lt_irrefl _)).2⟩
      · have hne : c.toNat ≠ d.toNat := fun h => heq (CodePoint.toNat_inj h)
        simp only [heq, hne, if_false, CodePoint.le, decide_eq_true_eq, false_and, or_false]
        omega

/-- Texts in ascending order by their code points, and those that have bytes by these. -/
structure Ascending (texts : List Text) : Prop where
  points : (texts.map Text.points).Pairwise List.le
  bytes : (texts.filterMap utf8?).Pairwise List.le

theorem ascending_of_le {texts : List Text} (h : texts.Pairwise fun a b => le a b = true) :
    Ascending texts where
  points := List.pairwise_map.2 (h.imp le_iff_points.1)
  bytes := by
    refine List.pairwise_filterMap.2 (h.imp ?_)
    intro a b hle x hx y hy
    exact (le_utf8?_iff hx hy).2 (le_iff_points.1 hle)

end TagsFile.Text
