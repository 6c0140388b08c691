import Holbuild.Library.Lines
import Holbuild.Library.Outcomes
import Holbuild.Library.SortedIndex
import Mathlib.Data.List.Lex
import Mathlib.Data.List.Perm.Basic
import Mathlib.Data.Char

/-!
# Framed fields and sorted sections

A framed text says its length first, so a sequence of frames is read in one way only
(`canonicalFields_injective`). A section is a tag, a count and that many values
(`canonicalList_append_inj`). Values that are sorted before they are framed stand for their multiset
(`canonicalSort_eq_iff`), and where different values have different texts, for the multiset of what the
texts are of (`perm_of_mapM`).
-/

set_option autoImplicit false
set_option relaxedAutoImplicit false

namespace Holbuild.Library

/-! ### Frames -/

/-- A text after its length and a colon. -/
def canonicalFrame (text : Text) : Text := decimal text.length ++ ':' :: text

def canonicalFields (fields : List Text) : Text := fields.flatMap canonicalFrame

theorem canonicalFrame_append_inj {a b x y : Text}
    (h : canonicalFrame a ++ x = canonicalFrame b ++ y) : a = b ∧ x = y := by
  have hcolon : ∀ n, ':' ∉ decimal n := by
    intro n hmem
    exact absurd (isDigit_of_mem_decimal hmem) (by decide)
  rw [canonicalFrame, canonicalFrame, List.append_assoc, List.append_assoc, List.cons_append,
    List.cons_append] at h
  obtain ⟨hlength, hrest⟩ := append_sep_inj (hcolon _) (hcolon _) h
  exact List.append_inj hrest (decimal_injective hlength)

/-- Fields are read back from their frames. -/
theorem canonicalFields_injective : Function.Injective canonicalFields := by
  have hempty : ∀ field rest, canonicalFields (field :: rest) ≠ [] := by
    intro field rest
    exact List.append_ne_nil_of_left_ne_nil
      (List.append_ne_nil_of_right_ne_nil _ (List.cons_ne_nil _ _)) _
  intro fields
  induction fields with
  | nil =>
    intro fields' h
    cases fields' with
    | nil => rfl
    | cons field rest => exact absurd h.symm (hempty field rest)
  | cons field rest ih =>
    intro fields' h
    cases fields' with
    | nil => exact absurd h (hempty field rest)
    | cons field' rest' =>
      obtain ⟨rfl, hrest⟩ := canonicalFrame_append_inj h
      rw [ih hrest]

/-! ### Sections -/

/-- A tag, the number of the values and the values. -/
def canonicalList (tag : Text) (values : List Text) : List Text :=
  [tag, decimal values.length] ++ values

/-- Sections of one tag are equal, and so is what follows. -/
theorem canonicalList_append_inj {tag : Text} {values values' rest rest' : List Text}
    (h : canonicalList tag values ++ rest = canonicalList tag values' ++ rest') :
    values = values' ∧ rest = rest' := by
  rw [canonicalList, canonicalList, List.append_assoc, List.append_assoc] at h
  have hcount := (List.cons.inj (List.cons.inj h).2).1
  exact List.append_inj (List.cons.inj (List.cons.inj h).2).2 (decimal_injective hcount)

/-! ### Sorted values -/

section Sorted

variable {κ : Type*} [LinearOrder κ]

/-- The values in order. -/
def canonicalSort (values : List κ) : List κ := sortPairs (fun a b ↦ decide (compare a b ≠ .gt)) values

theorem canonicalSort_perm (values : List κ) : (canonicalSort values).Perm values := sortPairs_perm values

theorem pairwise_canonicalSort (values : List κ) : (canonicalSort values).Pairwise (· ≤ ·) := by
  have hle : ∀ a b : κ, decide (compare a b ≠ .gt) = true ↔ a ≤ b := by
    intro a b
    rw [decide_eq_true_eq, compare_le_iff_le.symm]
  refine (pairwise_sortPairs (fun a b c hab hbc ↦ ?_) (fun a b ↦ ?_) values).imp
    fun h ↦ (hle _ _).mp h
  · exact (hle a c).mpr (((hle a b).mp hab).trans ((hle b c).mp hbc))
  · rw [Bool.or_eq_true, hle, hle]
    exact le_total a b

/-- Two lists have one sorted list exactly when they have the same values equally often. -/
theorem canonicalSort_eq_iff {values values' : List κ} :
    canonicalSort values = canonicalSort values' ↔ values.Perm values' := by
  constructor
  · intro h
    exact (canonicalSort_perm values).symm.trans (h ▸ canonicalSort_perm values')
  · intro h
    exact List.Perm.eq_of_pairwise (fun a b _ _ hab hba ↦ le_antisymm hab hba)
      (pairwise_canonicalSort values) (pairwise_canonicalSort values')
      ((canonicalSort_perm values).trans (h.trans (canonicalSort_perm values').symm))

end Sorted

/-! ### Texts of values -/

section Texts

universe u

variable {α β ε : Type u} {f f' : α → Except ε β} {values values' : List α} {texts texts' : List β}

/-- Values whose texts are the same equally often are the same equally often, if only equal values
have equal texts. -/
theorem perm_of_mapM
    (hinj : ∀ a ∈ values, ∀ b ∈ values', ∀ text, f a = .ok text → f' b = .ok text → a = b)
    (h : values.mapM f = .ok texts) (h' : values'.mapM f' = .ok texts') (hperm : texts.Perm texts') :
    values.Perm values' := by
  -- the second values in the order of the first texts
  obtain ⟨ordered, hordered, hpermOrdered⟩ :=
    List.perm_comp_forall₂ hperm (List.Forall₂.flip (mapM_eq_ok_iff.mp h'))
  have hsame : values = ordered := by
    have hsub : ∀ b ∈ ordered, b ∈ values' := fun b hb ↦ hpermOrdered.mem_iff.mp hb
    have hforall := mapM_eq_ok_iff.mp h
    clear h h' hperm hpermOrdered
    induction hforall generalizing ordered with
    | nil => exact (List.forall₂_nil_left_iff.mp hordered).symm
    | @cons a text values texts ha _ ih =>
      obtain ⟨b, ordered', hb, hrest, rfl⟩ := List.forall₂_cons_left_iff.mp hordered
      rw [hinj a List.mem_cons_self b (hsub b List.mem_cons_self) text ha hb,
        ih (fun a ha ↦ hinj a (List.mem_cons_of_mem _ ha)) ordered' hrest
          fun b hb ↦ hsub b (List.mem_cons_of_mem _ hb)]
  exact hsame ▸ hpermOrdered

/-- The texts of the same values in another order are the same texts in another order. -/
theorem mapM_perm (hsame : ∀ a text, f a = .ok text → f' a = .ok text)
    (h : values.mapM f = .ok texts) (hperm : values.Perm values') : ∃ texts', values'.mapM f' = .ok texts' ∧ texts'.Perm texts := by
  obtain ⟨texts', htexts', hpermTexts⟩ := List.perm_comp_forall₂ hperm.symm (mapM_eq_ok_iff.mp h)
  exact ⟨texts', mapM_eq_ok_iff.mpr (htexts'.imp fun a text ↦ hsame a text), hpermTexts⟩

end Texts

end Holbuild.Library
