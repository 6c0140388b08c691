import Mathlib.Data.List.Basic
import Mathlib.Logic.Function.Basic

/-!
# Locks on files that belong to processes

A process holds at most one lock on a file, shared or exclusive, and loses it when it closes any
descriptor of the file and when it ends. A lock is got where no other process holds one that is at odds
with it; getting a second one on the same file changes the first. `LockTable` carries that processes never
hold locks that are at odds; `LockTable.alone` is what an exclusive lock is for.
-/

set_option autoImplicit false
set_option relaxedAutoImplicit false

namespace Holbuild.Library

inductive LockMode
  | shared
  | exclusive
deriving DecidableEq, Repr

/-- Who holds locks on files, in which mode. No two processes hold locks on one file unless both are
shared. -/
structure LockTable (File : Type) where
  holders : File → List (ℕ × LockMode)
  compatible : ∀ file p q mode mode', (p, mode) ∈ holders file → (q, mode') ∈ holders file →
    p ≠ q → mode = .shared ∧ mode' = .shared

namespace LockTable

variable {File : Type} [DecidableEq File] {table table' : LockTable File} {file other : File}
  {p q : ℕ} {mode mode' : LockMode}

/-- Whether no other process holds a lock that is at odds with one. -/
def free (table : LockTable File) (p : ℕ) (file : File) (mode : LockMode) : Bool :=
  (table.holders file).all fun holder ↦
    holder.1 = p ∨ (holder.2 = .shared ∧ mode = .shared)

/-- The holders of a file's locks without those of a process. -/
def without (table : LockTable File) (p : ℕ) (file : File) : List (ℕ × LockMode) :=
  (table.holders file).filter fun holder ↦ holder.1 ≠ p

omit [DecidableEq File] in
theorem mem_without : (q, mode) ∈ table.without p file ↔ (q, mode) ∈ table.holders file ∧ q ≠ p := by
  simp [without]

/-- No process holds a lock. -/
def none : LockTable File where
  holders _ := []
  compatible _ _ _ _ _ h := nomatch h

/-- A process gets a lock, if it can be had. -/
def acquire (table : LockTable File) (p : ℕ) (file : File) (mode : LockMode) :
    Option (LockTable File) :=
  if hfree : table.free p file mode then
    some {
      holders := Function.update table.holders file ((p, mode) :: table.without p file)
      compatible := by
        have hothers : ∀ q mode', (q, mode') ∈ table.without p file → mode' = .shared ∧ mode = .shared := by
          intro q mode' hq
          obtain ⟨hmem, hne⟩ := mem_without.mp hq
          have hholder := List.all_eq_true.mp hfree _ hmem
          exact (of_decide_eq_true hholder).resolve_left hne
        intro held q r mode₁ mode₂ hq hr hne
        rcases eq_or_ne held file with rfl | hheld
        · rw [Function.update_self] at hq hr
          rcases List.mem_cons.mp hq with hq | hq <;> rcases List.mem_cons.mp hr with hr | hr
          · cases hq
            cases hr
            exact absurd rfl hne
          · cases hq
            exact (hothers r mode₂ hr).symm
          · cases hr
            exact hothers q mode₁ hq
          · exact table.compatible held q r mode₁ mode₂ (mem_without.mp hq).1 (mem_without.mp hr).1 hne
        · rw [Function.update_of_ne hheld] at hq hr
          exact table.compatible held q r mode₁ mode₂ hq hr hne }
  else Option.none

/-- A process closes a descriptor of a file. -/
def close (table : LockTable File) (p : ℕ) (file : File) : LockTable File where
  holders := Function.update table.holders file (table.without p file)
  compatible := by
    intro held q r mode₁ mode₂ hq hr hne
    rcases eq_or_ne held file with rfl | hheld
    · rw [Function.update_self] at hq hr
      exact table.compatible held q r mode₁ mode₂ (mem_without.mp hq).1 (mem_without.mp hr).1 hne
    · rw [Function.update_of_ne hheld] at hq hr
      exact table.compatible held q r mode₁ mode₂ hq hr hne

/-- A process ends. -/
def exit (table : LockTable File) (p : ℕ) : LockTable File where
  holders file := table.without p file
  compatible held q r mode₁ mode₂ hq hr hne :=
    table.compatible held q r mode₁ mode₂ (mem_without.mp hq).1 (mem_without.mp hr).1 hne

/-- A process that got a lock holds it. -/
theorem mem_of_acquire (h : table.acquire p file mode = some table') :
    (p, mode) ∈ table'.holders file := by
  rw [acquire] at h
  split_ifs at h
  cases h
  simp

/-- Getting a lock changes no other. -/
theorem mem_acquire_iff (h : table.acquire p file mode = some table') (hother : q ≠ p ∨ other ≠ file) :
    (q, mode') ∈ table'.holders other ↔ (q, mode') ∈ table.holders other := by
  rw [acquire] at h
  split_ifs at h
  cases h
  rcases eq_or_ne other file with rfl | hne
  · have hq := hother.resolve_right fun hne ↦ hne rfl
    simp [mem_without, hq]
  · simp [Function.update_of_ne hne]

theorem mem_close_iff (hother : q ≠ p ∨ other ≠ file) :
    (q, mode) ∈ (table.close p file).holders other ↔ (q, mode) ∈ table.holders other := by
  rcases eq_or_ne other file with rfl | hne
  · have hq := hother.resolve_right fun hne ↦ hne rfl
    simp [close, mem_without, hq]
  · simp [close, Function.update_of_ne hne]

omit [DecidableEq File] in
theorem mem_exit_iff (hother : q ≠ p) :
    (q, mode) ∈ (table.exit p).holders file ↔ (q, mode) ∈ table.holders file :=
  mem_without.trans (and_iff_left hother)

omit [DecidableEq File] in
/-- While a process holds a file's exclusive lock, no other holds a lock on it. -/
theorem alone (h : (p, .exclusive) ∈ table.holders file) (hq : (q, mode) ∈ table.holders file) : q = p := by
  by_contra hne
  exact absurd (table.compatible file p q .exclusive mode h hq (Ne.symm hne)).1 (by decide)

end LockTable

end Holbuild.Library
