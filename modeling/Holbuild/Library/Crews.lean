import Mathlib.Algebra.BigOperators.Group.Finset.Basic
import Mathlib.Algebra.Order.BigOperators.Group.Finset

/-!
# Crews of workers

The members of a crew, by number, each at some place. `tally` adds up what the places weigh;
`tally_update` says how it changes when one member goes elsewhere, and `tally_le_card` bounds it
by the number of members.
-/

set_option autoImplicit false
set_option relaxedAutoImplicit false

namespace Holbuild.Library

variable {ι α : Type*} [Fintype ι] {weight : α → ℕ} {crew crew' : ι → α} {i : ι} {a : α}

/-- What the places of a crew weigh together. -/
def tally (weight : α → ℕ) (crew : ι → α) : ℕ := ∑ i, weight (crew i)

/-- When one member goes elsewhere, the tally changes by the difference of two places. -/
theorem tally_update [DecidableEq ι] : tally weight (Function.update crew i a) + weight (crew i) =
    tally weight crew + weight a := by
  have hrest : ∑ j ∈ Finset.univ.erase i, weight (Function.update crew i a j) =
      ∑ j ∈ Finset.univ.erase i, weight (crew j) := by
    refine Finset.sum_congr rfl fun j hj ↦ ?_
    rw [Function.update_of_ne (Finset.ne_of_mem_erase hj)]
  have hnew := Finset.add_sum_erase Finset.univ (fun j ↦ weight (Function.update crew i a j))
    (Finset.mem_univ i)
  have hold := Finset.add_sum_erase Finset.univ (fun j ↦ weight (crew j)) (Finset.mem_univ i)
  simp only [Function.update_self] at hnew
  unfold tally
  omega

/-- Crews whose members are at equally heavy places have one tally. -/
theorem tally_congr (h : ∀ i, weight (crew i) = weight (crew' i)) :
    tally weight crew = tally weight crew' :=
  Finset.sum_congr rfl fun i _ ↦ h i

theorem tally_eq_zero_iff : tally weight crew = 0 ↔ ∀ i, weight (crew i) = 0 := by
  simp [tally]

/-- A crew at places of weight at most one weighs at most its number. -/
theorem tally_le_card (h : ∀ a, weight a ≤ 1) : tally weight crew ≤ Fintype.card ι := by
  have hsum := Finset.sum_le_card_nsmul Finset.univ (fun i ↦ weight (crew i)) 1 fun i _ ↦ h (crew i)
  simpa [tally] using hsum

end Holbuild.Library
