import Mathlib.Data.List.Basic
import Mathlib.Logic.Function.Basic

/-!
# Incremental snapshots

A snapshot is saved on a chain of earlier snapshots and holds only what changed since the last of them, so
it can be loaded only while every file of its chain is the one it was saved on. A shelf keeps one snapshot
under a key. `Shelf.Sound` says that every snapshot that counts has its chain: it is kept by what
removes no file under a remaining snapshot (`Shelf.Sound.restrict`) and by saving over a file under no
other one (`Shelf.Sound.put`).
-/

set_option autoImplicit false
set_option relaxedAutoImplicit false

namespace Holbuild.Library

/-- A snapshot with its data, its file and the keys and files it was saved on, oldest first. -/
structure Snapshot (Key Data : Type*) where
  data : Data
  file : ℕ
  parents : List (Key × ℕ)

/-- The snapshots that are kept, one under a key. -/
abbrev Shelf (Key Data : Type*) := Key → Option (Snapshot Key Data)

namespace Shelf

variable {Key Data : Type*} {shelf other : Shelf Key Data} {parents : List (Key × ℕ)}

/-- Every file of a chain is still under its key. -/
def Present (shelf : Shelf Key Data) (parents : List (Key × ℕ)) : Prop :=
  ∀ parent ∈ parents, (shelf parent.1).map Snapshot.file = some parent.2

instance : Decidable (shelf.Present parents) :=
  inferInstanceAs (Decidable (∀ parent ∈ parents, _))

/-- There is a snapshot under a key, and its chain is present. -/
def Whole (shelf : Shelf Key Data) (key : Key) : Prop :=
  match shelf key with
  | some snapshot => shelf.Present snapshot.parents
  | none => False

instance (key : Key) : Decidable (shelf.Whole key) :=
  match h : shelf key with
  | some snapshot =>
    decidable_of_iff (shelf.Present snapshot.parents) (by rw [Whole, h])
  | none => .isFalse (by rw [Whole, h]; exact id)

theorem whole_iff {key : Key} {snapshot : Snapshot Key Data} (h : shelf key = some snapshot) :
    shelf.Whole key ↔ shelf.Present snapshot.parents := by
  rw [Whole, h]

theorem Present.nil : shelf.Present [] := fun _ hmem ↦ absurd hmem List.not_mem_nil

/-- A chain stays present where none of its keys changes. -/
theorem Present.congr (h : shelf.Present parents)
    (hsame : ∀ parent ∈ parents, other parent.1 = shelf parent.1) : other.Present parents := by
  intro parent hparent
  rw [hsame parent hparent]
  exact h parent hparent

theorem Present.append {more : List (Key × ℕ)} (h : shelf.Present parents)
    (hmore : shelf.Present more) : shelf.Present (parents ++ more) := by
  intro parent hparent
  rcases List.mem_append.mp hparent with hmem | hmem
  · exact h parent hmem
  · exact hmore parent hmem

theorem Present.take (h : shelf.Present parents) (n : ℕ) : shelf.Present (parents.take n) :=
  fun parent hparent ↦ h parent (List.mem_of_mem_take hparent)

/-- The snapshots under some of the keys. -/
def restrict (shelf : Shelf Key Data) (kept : Key → Bool) : Shelf Key Data := fun key ↦
  if kept key then shelf key else none

theorem restrict_of_kept {kept : Key → Bool} {key : Key} (h : kept key = true) :
    shelf.restrict kept key = shelf key := by
  rw [restrict, if_pos h]

theorem restrict_eq_some {kept : Key → Bool} {key : Key} {snapshot : Snapshot Key Data} :
    shelf.restrict kept key = some snapshot ↔ kept key = true ∧ shelf key = some snapshot := by
  rw [restrict]
  split
  · next h => simp [h]
  · next h => simp [h]

/-- Saves a snapshot under a key, over the one that is there. -/
def put [DecidableEq Key] (shelf : Shelf Key Data) (key : Key) (snapshot : Snapshot Key Data) :
    Shelf Key Data :=
  Function.update shelf key (some snapshot)

theorem put_self [DecidableEq Key] {key : Key} {snapshot : Snapshot Key Data} :
    shelf.put key snapshot key = some snapshot := Function.update_self key _ shelf

theorem put_of_ne [DecidableEq Key] {key key' : Key} {snapshot : Snapshot Key Data}
    (h : key' ≠ key) : shelf.put key snapshot key' = shelf key' := Function.update_of_ne h _ shelf

/-- What is under a key after a save was saved now, or was there before under another key. -/
theorem put_eq_some [DecidableEq Key] {key key' : Key} {snapshot snapshot' : Snapshot Key Data} :
    shelf.put key snapshot key' = some snapshot' ↔
      key' = key ∧ snapshot = snapshot' ∨ key' ≠ key ∧ shelf key' = some snapshot' := by
  by_cases h : key' = key
  · rw [h, put_self]
    simp
  · rw [put_of_ne h]
    simp [h]

/-- Every snapshot whose data counts has its chain. -/
def Sound (counts : Data → Prop) (shelf : Shelf Key Data) : Prop :=
  ∀ key snapshot, shelf key = some snapshot → counts snapshot.data → shelf.Present snapshot.parents

variable {counts : Data → Prop}

/-- Removing snapshots keeps the others whole when none of the others is saved on a removed one. -/
theorem Sound.restrict (hsound : shelf.Sound counts) {kept : Key → Bool}
    (hspared : ∀ key snapshot, shelf key = some snapshot → counts snapshot.data → kept key = true →
      ∀ parent ∈ snapshot.parents, kept parent.1 = true) : (shelf.restrict kept).Sound counts := by
  intro key snapshot hkey hcounts
  obtain ⟨hkept, hkey⟩ := restrict_eq_some.mp hkey
  exact (hsound key snapshot hkey hcounts).congr fun parent hparent ↦
    restrict_of_kept (hspared key snapshot hkey hcounts hkept parent hparent)

/-- Saving a snapshot keeps all of them whole when neither it nor another one is saved on the one it
replaces. -/
theorem Sound.put [DecidableEq Key] (hsound : shelf.Sound counts) {key : Key}
    {snapshot : Snapshot Key Data} (hpresent : shelf.Present snapshot.parents)
    (hnew : ∀ parent ∈ snapshot.parents, parent.1 ≠ key)
    (hspared : ∀ other otherSnapshot, other ≠ key → shelf other = some otherSnapshot →
      counts otherSnapshot.data → ∀ parent ∈ otherSnapshot.parents, parent.1 ≠ key) :
    (shelf.put key snapshot).Sound counts := by
  intro other otherSnapshot hother hcounts
  rcases put_eq_some.mp hother with ⟨_, hsnapshot⟩ | ⟨hne, hother⟩
  · rw [← hsnapshot]
    exact hpresent.congr fun parent hparent ↦ put_of_ne (hnew parent hparent)
  · exact (hsound other otherSnapshot hother hcounts).congr fun parent hparent ↦
      put_of_ne (hspared other otherSnapshot hne hother hcounts parent hparent)

end Shelf

end Holbuild.Library
