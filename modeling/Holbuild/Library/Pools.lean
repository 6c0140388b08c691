import Mathlib.Logic.Function.Basic

/-!
# Pools of tasks

The tasks, calls or transactions of a process, by number: `pool k` is `none` while there is no `k`th one.
`update_eq_some_iff` says what a pool has after one of its members changed, and `Grows` that every member
went on as a relation allows. `Held` says that the members hold exactly the things with a property, each
held by one of them; taking and laying down keep it.
-/

set_option autoImplicit false
set_option relaxedAutoImplicit false

namespace Holbuild.Library

variable {ι α : Type*} [DecidableEq ι] {pool : ι → Option α} {k j : ι} {a b : α}

/-- A member of a changed pool is the one that changed or one of the others. -/
theorem update_eq_some_iff : Function.update pool k (some a) j = some b ↔
    j = k ∧ a = b ∨ j ≠ k ∧ pool j = some b := by
  by_cases hj : j = k
  · subst hj
    simp
  · simp [hj]

/-- A member of a pool that lost one is one of the others. -/
theorem update_none_eq_some_iff : Function.update pool k none j = some b ↔
    j ≠ k ∧ pool j = some b := by
  by_cases hj : j = k
  · subst hj
    simp
  · simp [hj]

/-- Every member of the first pool is one of the second, where it may have gone on. -/
def Grows {ι α : Type*} (later : α → α → Prop) (pool pool' : ι → Option α) : Prop :=
  ∀ k a, pool k = some a → ∃ b, pool' k = some b ∧ later a b

variable {later : α → α → Prop}

/-- A pool grows when a member goes on. -/
theorem grows_update (hrefl : ∀ a, later a a) (hk : pool k = some a) (hlater : later a b) :
    Grows later pool (Function.update pool k (some b)) := by
  intro j c hc
  by_cases hj : j = k
  · subst hj
    obtain rfl := Option.some.inj (hk.symm.trans hc)
    exact ⟨b, Function.update_self .., hlater⟩
  · exact ⟨c, by rw [Function.update_of_ne hj, hc], hrefl c⟩

/-- A pool grows when a member is created. -/
theorem grows_create (hrefl : ∀ a, later a a) (hk : pool k = none) :
    Grows later pool (Function.update pool k (some b)) := by
  intro j c hc
  have hj : j ≠ k := by
    rintro rfl
    rw [hk] at hc
    cases hc
  exact ⟨c, by rw [Function.update_of_ne hj, hc], hrefl c⟩

/-! ### Who holds what -/

/-- What the members of a pool hold: exactly the things with a property, each held by one member. -/
structure Held {ι α : Type*} (pool : ι → Option α) (P : α → Prop) : Prop where
  holds : ∀ a, P a ↔ ∃ k, pool k = some a
  alone : ∀ j k a, pool j = some a → pool k = some a → j = k

variable {P P' : α → Prop}

/-- A member with empty hands takes something new. -/
theorem Held.take (h : Held pool P) (hk : pool k = none) (ha : ¬ P a)
    (hP : ∀ c, P' c ↔ c = a ∨ P c) : Held (Function.update pool k (some a)) P' := by
  constructor
  · intro c
    rw [hP, h.holds]
    constructor
    · rintro (rfl | ⟨j, hj⟩)
      · exact ⟨k, update_eq_some_iff.mpr (.inl ⟨rfl, rfl⟩)⟩
      · refine ⟨j, update_eq_some_iff.mpr (.inr ⟨?_, hj⟩)⟩
        rintro rfl
        rw [hk] at hj
        cases hj
    · rintro ⟨j, hj⟩
      rcases update_eq_some_iff.mp hj with ⟨-, rfl⟩ | ⟨-, hj⟩
      · exact .inl rfl
      · exact .inr ⟨j, hj⟩
  · intro i j c hi hj
    rcases update_eq_some_iff.mp hi with ⟨rfl, rfl⟩ | ⟨-, hi'⟩
    · rcases update_eq_some_iff.mp hj with ⟨rfl, -⟩ | ⟨-, hj'⟩
      · rfl
      · exact absurd ((h.holds a).mpr ⟨j, hj'⟩) ha
    · rcases update_eq_some_iff.mp hj with ⟨rfl, rfl⟩ | ⟨-, hj'⟩
      · exact absurd ((h.holds a).mpr ⟨i, hi'⟩) ha
      · exact h.alone i j c hi' hj'

/-- A member lays down what it holds. -/
theorem Held.drop (h : Held pool P) (hk : pool k = some a) (hP : ∀ c, P' c ↔ c ≠ a ∧ P c) :
    Held (Function.update pool k none) P' := by
  constructor
  · intro c
    rw [hP, h.holds]
    constructor
    · rintro ⟨hc, j, hj⟩
      refine ⟨j, update_none_eq_some_iff.mpr ⟨?_, hj⟩⟩
      rintro rfl
      exact hc (Option.some.inj (hj.symm.trans hk))
    · rintro ⟨j, hj⟩
      obtain ⟨hjk, hj⟩ := update_none_eq_some_iff.mp hj
      refine ⟨?_, j, hj⟩
      rintro rfl
      exact hjk (h.alone j k c hj hk)
  · intro i j c hi hj
    exact h.alone i j c (update_none_eq_some_iff.mp hi).2 (update_none_eq_some_iff.mp hj).2

end Holbuild.Library
