import Mathlib.Data.List.Forall2

/-!
# Computations that may raise

Rules for sequences of computations in `Except`: what a bind returned or raised, and what a loop that
ended or raised did at each element of its list.
-/

set_option autoImplicit false
set_option relaxedAutoImplicit false

namespace Holbuild.Library

universe u

variable {α β ε σ : Type u}

theorem bind_eq_ok_iff {x : Except ε α} {f : α → Except ε β} {b : β} :
    x >>= f = .ok b ↔ ∃ a, x = .ok a ∧ f a = .ok b := by
  constructor
  · intro h
    cases x with
    | ok a => exact ⟨a, rfl, h⟩
    | error e => cases h
  · rintro ⟨a, rfl, h⟩
    exact h

theorem bind_eq_error_iff {x : Except ε α} {f : α → Except ε β} {e : ε} :
    x >>= f = .error e ↔ x = .error e ∨ ∃ a, x = .ok a ∧ f a = .error e := by
  constructor
  · intro h
    cases x with
    | ok a => exact .inr ⟨a, rfl, h⟩
    | error e' => exact .inl (congrArg Except.error (Except.error.inj h))
  · rintro (rfl | ⟨a, rfl, h⟩)
    · rfl
    · exact h

/-- What is returned unless a condition holds. -/
theorem eq_of_ite_error_eq_ok {c : Prop} [Decidable c] {e : ε} {a b : α}
    (h : (if c then .error e else .ok a : Except ε α) = .ok b) : a = b := by
  by_cases hc : c
  · rw [if_pos hc] at h
    cases h
  · rw [if_neg hc] at h
    exact Except.ok.inj h

/-- A list of computations ends with their results. -/
theorem mapM_eq_ok_iff {f : α → Except ε β} {values : List α} {results : List β} :
    values.mapM f = .ok results ↔ List.Forall₂ (fun a b ↦ f a = .ok b) values results := by
  induction values generalizing results with
  | nil =>
    rw [List.mapM_nil, List.forall₂_nil_left_iff]
    show Except.ok [] = _ ↔ _
    rw [Except.ok.injEq, eq_comm]
  | cons a rest ih =>
    rw [List.mapM_cons, bind_eq_ok_iff, List.forall₂_cons_left_iff]
    constructor
    · rintro ⟨b, hb, hrest⟩
      obtain ⟨bs, hbs, heq⟩ := bind_eq_ok_iff.mp hrest
      rw [← Except.ok.inj heq]
      exact ⟨b, bs, hb, ih.mp hbs, rfl⟩
    · rintro ⟨b, bs, hb, hbs, rfl⟩
      exact ⟨b, hb, bind_eq_ok_iff.mpr ⟨bs, ih.mpr hbs, rfl⟩⟩

/-- Each computation of a list that ended has its result among the results. -/
theorem exists_result_of_mem {f : α → Except ε β} {values : List α} {results : List β}
    (h : values.mapM f = .ok results) {a : α} (ha : a ∈ values) : ∃ b ∈ results, f a = .ok b := by
  induction mapM_eq_ok_iff.mp h with
  | nil => exact absurd ha List.not_mem_nil
  | cons hhead htail ih =>
    rcases List.mem_cons.mp ha with rfl | ha
    · exact ⟨_, List.mem_cons_self, hhead⟩
    · obtain ⟨b, hb, hok⟩ := ih (mapM_eq_ok_iff.mpr htail) ha
      exact ⟨b, List.mem_cons_of_mem _ hb, hok⟩

/-- Each result is that of one of the computations. -/
theorem exists_of_mem_result {f : α → Except ε β} {values : List α} {results : List β}
    (h : values.mapM f = .ok results) {b : β} (hb : b ∈ results) : ∃ a ∈ values, f a = .ok b := by
  induction mapM_eq_ok_iff.mp h with
  | nil => exact absurd hb List.not_mem_nil
  | cons hhead htail ih =>
    rcases List.mem_cons.mp hb with rfl | hb
    · exact ⟨_, List.mem_cons_self, hhead⟩
    · obtain ⟨a, ha, hok⟩ := ih (mapM_eq_ok_iff.mpr htail) hb
      exact ⟨a, List.mem_cons_of_mem _ ha, hok⟩

/-- Computations that all succeed succeed with their results. -/
theorem mapM_eq_ok {f : α → Except ε β} {g : α → β} {values : List α}
    (h : ∀ a ∈ values, f a = .ok (g a)) : values.mapM f = .ok (values.map g) := by
  rw [mapM_eq_ok_iff, List.forall₂_map_right_iff, List.forall₂_same]
  exact h

/-- What a list of computations raises, one of them raises. -/
theorem exists_of_mapM_eq_error {f : α → Except ε β} {values : List α} {e : ε}
    (h : values.mapM f = .error e) : ∃ a ∈ values, f a = .error e := by
  induction values with
  | nil => cases h
  | cons a rest ih =>
    rw [List.mapM_cons, bind_eq_error_iff] at h
    rcases h with ha | ⟨b, -, hrest⟩
    · exact ⟨a, List.mem_cons_self, ha⟩
    · rcases bind_eq_error_iff.mp hrest with hrest | ⟨bs, -, hpure⟩
      · obtain ⟨c, hc, hraised⟩ := ih hrest
        exact ⟨c, List.mem_cons_of_mem _ hc, hraised⟩
      · cases hpure

/-- A loop ends when it ends at each element. -/
theorem forM_eq_ok_iff {f : α → Except ε PUnit.{u + 1}} {values : List α} :
    values.forM f = .ok ⟨⟩ ↔ ∀ a ∈ values, f a = .ok ⟨⟩ := by
  induction values with
  | nil => exact iff_of_true rfl fun a ha ↦ absurd ha List.not_mem_nil
  | cons a rest ih =>
    show f a >>= (fun _ ↦ rest.forM f) = _ ↔ _
    rw [bind_eq_ok_iff, List.forall_mem_cons, ← ih]
    exact ⟨fun ⟨_, ha, hrest⟩ ↦ ⟨ha, hrest⟩, fun ⟨ha, hrest⟩ ↦ ⟨_, ha, hrest⟩⟩

/-- What a loop raises, it raises at some element. -/
theorem exists_of_forM_eq_error {f : α → Except ε PUnit.{u + 1}} {values : List α} {e : ε}
    (h : values.forM f = .error e) : ∃ a ∈ values, f a = .error e := by
  induction values with
  | nil => cases h
  | cons a rest ih =>
    have hcons : f a >>= (fun _ ↦ rest.forM f) = .error e := h
    rcases bind_eq_error_iff.mp hcons with ha | ⟨_, -, hrest⟩
    · exact ⟨a, List.mem_cons_self, ha⟩
    · obtain ⟨c, hc, hraised⟩ := ih hrest
      exact ⟨c, List.mem_cons_of_mem _ hc, hraised⟩

/-- What a fold raises, it raises at some element. -/
theorem exists_of_foldlM_eq_error {f : σ → α → Except ε σ} {values : List α} {s : σ} {e : ε}
    (h : values.foldlM f s = .error e) : ∃ s, ∃ a ∈ values, f s a = .error e := by
  induction values generalizing s with
  | nil => cases h
  | cons a rest ih =>
    rw [List.foldlM_cons, bind_eq_error_iff] at h
    rcases h with ha | ⟨s', -, hrest⟩
    · exact ⟨s, a, List.mem_cons_self, ha⟩
    · obtain ⟨s'', c, hc, hraised⟩ := ih hrest
      exact ⟨s'', c, List.mem_cons_of_mem _ hc, hraised⟩

/-- A fold that ended took a step at each element. -/
theorem exists_step_of_mem_foldlM {f : σ → α → Except ε σ} {values : List α} {s last : σ}
    (h : values.foldlM f s = .ok last) {a : α} (ha : a ∈ values) : ∃ s s', f s a = .ok s' := by
  induction values generalizing s with
  | nil => exact absurd ha List.not_mem_nil
  | cons first rest ih =>
    rw [List.foldlM_cons, bind_eq_ok_iff] at h
    obtain ⟨s', hfirst, hrest⟩ := h
    rcases List.mem_cons.mp ha with rfl | ha
    · exact ⟨s, s', hfirst⟩
    · exact ih hrest ha

end Holbuild.Library
