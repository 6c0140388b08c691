import Mathlib.Data.List.Nodup
import Mathlib.Data.List.Perm.Basic

/-!
# Custody of things

Holders have lists of things in their hands. `Custody` says that exactly the things with a property are
held, each by one holder and once in its list. Handing things over from one holder to another keeps it
(`Custody.move`), and so does a new thing in a holder's hands (`Custody.create`).
-/

set_option autoImplicit false
set_option relaxedAutoImplicit false

namespace Holbuild.Library

/-- Exactly the things with a property are held, each by one holder, once. -/
structure Custody {Holder α : Type*} (holdings : Holder → List α) (P : α → Prop) : Prop where
  held : ∀ a, P a ↔ ∃ i, a ∈ holdings i
  nodup : ∀ i, (holdings i).Nodup
  alone : ∀ i j a, a ∈ holdings i → a ∈ holdings j → i = j

variable {Holder α : Type*} {holdings holdings' : Holder → List α} {P P' : α → Prop} {i j : Holder} {a : α}

theorem custody_nil : Custody (fun _ : Holder ↦ ([] : List α)) fun _ ↦ False where
  held _ := ⟨False.elim, fun ⟨_, hmem⟩ ↦ nomatch hmem⟩
  nodup _ := List.nodup_nil
  alone _ _ _ hmem := nomatch hmem

theorem Custody.congr (h : Custody holdings P) (hsame : ∀ k, holdings' k = holdings k) : Custody holdings' P :=
  funext hsame ▸ h

/-- Each thing has its holder. -/
theorem Custody.existsUnique (h : Custody holdings P) (ha : P a) : ∃! i, a ∈ holdings i := by
  obtain ⟨i, hi⟩ := (h.held a).mp ha
  exact ⟨i, hi, fun j hj ↦ h.alone j i a hj hi⟩

/-- A thing that is in two hands is in the same ones. -/
theorem Custody.notMem (h : Custody holdings P) (hi : a ∈ holdings i) (hne : i ≠ j) : a ∉ holdings j :=
  fun hj ↦ hne (h.alone i j a hi hj)

/-- Assumes: only two holders' lists change, and what the first gave the second got. -/
theorem Custody.move {moved : List α} (h : Custody holdings P) (hne : i ≠ j)
    (hfrom : (holdings i).Perm (moved ++ holdings' i)) (hto : (holdings' j).Perm (moved ++ holdings j))
    (hothers : ∀ k, k ≠ i → k ≠ j → holdings' k = holdings k) : Custody holdings' P := by
  have hmemi : ∀ b, b ∈ holdings i ↔ b ∈ moved ∨ b ∈ holdings' i := fun b ↦
    hfrom.mem_iff.trans List.mem_append
  have hmemj : ∀ b, b ∈ holdings' j ↔ b ∈ moved ∨ b ∈ holdings j := fun b ↦
    hto.mem_iff.trans List.mem_append
  have hsplit := List.nodup_append.mp (hfrom.nodup_iff.mp (h.nodup i))
  obtain ⟨hmoved, hrest, hapart⟩ := hsplit
  -- a thing that another holder has after was there before, unless it was handed over
  have hbefore : ∀ k b, b ∈ holdings' k → b ∈ holdings k ∨ k = j ∧ b ∈ moved := by
    intro k b hb
    rcases eq_or_ne k j with rfl | hkj
    · exact ((hmemj b).mp hb).elim (fun hmem ↦ .inr ⟨rfl, hmem⟩) .inl
    · rcases eq_or_ne k i with rfl | hki
      · exact .inl ((hmemi b).mpr (.inr hb))
      · exact .inl (hothers k hki hkj ▸ hb)
  have hgone : ∀ b, b ∈ moved → ∀ k, b ∈ holdings' k → k = j := by
    intro b hb k hk
    by_contra hkj
    rcases eq_or_ne k i with rfl | hki
    · exact hapart b hb b hk rfl
    · have hkb : b ∈ holdings k := hothers k hki hkj ▸ hk
      exact hki (h.alone k i b hkb ((hmemi b).mpr (.inl hb)))
  constructor
  · intro b
    rw [h.held b]
    constructor
    · rintro ⟨k, hk⟩
      rcases eq_or_ne k i with rfl | hki
      · rcases (hmemi b).mp hk with hb | hb
        · exact ⟨j, (hmemj b).mpr (.inl hb)⟩
        · exact ⟨k, hb⟩
      · rcases eq_or_ne k j with rfl | hkj
        · exact ⟨k, (hmemj b).mpr (.inr hk)⟩
        · exact ⟨k, (hothers k hki hkj).symm ▸ hk⟩
    · rintro ⟨k, hk⟩
      rcases hbefore k b hk with hb | ⟨-, hb⟩
      · exact ⟨k, hb⟩
      · exact ⟨i, (hmemi b).mpr (.inl hb)⟩
  · intro k
    rcases eq_or_ne k j with rfl | hkj
    · refine hto.nodup_iff.mpr (List.nodup_append.mpr ⟨hmoved, h.nodup k, ?_⟩)
      rintro b hb _ hk rfl
      exact hne (h.alone i k b ((hmemi b).mpr (.inl hb)) hk)
    · rcases eq_or_ne k i with rfl | hki
      · exact hrest
      · exact (hothers k hki hkj).symm ▸ h.nodup k
  · intro k l b hk hl
    rcases hbefore k b hk with hk' | ⟨rfl, hb⟩
    · rcases hbefore l b hl with hl' | ⟨rfl, hb⟩
      · exact h.alone k l b hk' hl'
      · exact hgone b hb k hk
    · exact (hgone b hb l hl).symm

/-- A holder gets something new. -/
theorem Custody.create (h : Custody holdings P) (ha : ¬ P a) (hP : ∀ b, P' b ↔ b = a ∨ P b)
    (hi : holdings' i = a :: holdings i) (hothers : ∀ k, k ≠ i → holdings' k = holdings k) :
    Custody holdings' P' := by
  have hnew : ∀ k, a ∉ holdings k := fun k hk ↦ ha ((h.held a).mpr ⟨k, hk⟩)
  have hmem : ∀ k b, b ∈ holdings' k ↔ k = i ∧ b = a ∨ b ∈ holdings k := by
    intro k b
    rcases eq_or_ne k i with rfl | hki
    · simp [hi]
    · simp [hothers k hki, hki]
  constructor
  · intro b
    simp only [hP, h.held, hmem]
    constructor
    · rintro (rfl | ⟨k, hk⟩)
      · exact ⟨i, .inl ⟨rfl, rfl⟩⟩
      · exact ⟨k, .inr hk⟩
    · rintro ⟨k, ⟨-, rfl⟩ | hk⟩
      · exact .inl rfl
      · exact .inr ⟨k, hk⟩
  · intro k
    rcases eq_or_ne k i with rfl | hki
    · exact hi ▸ List.nodup_cons.mpr ⟨hnew k, h.nodup k⟩
    · exact (hothers k hki).symm ▸ h.nodup k
  · intro k l b hk hl
    rcases (hmem k b).mp hk with ⟨rfl, rfl⟩ | hk
    · rcases (hmem l b).mp hl with ⟨rfl, -⟩ | hl
      · rfl
      · exact absurd hl (hnew l)
    · rcases (hmem l b).mp hl with ⟨rfl, rfl⟩ | hl
      · exact absurd hk (hnew k)
      · exact h.alone k l b hk hl

end Holbuild.Library
