import Mathlib.Data.List.Basic
import Mathlib.Order.Lattice

/-!
# Rows that carry the number of their last writer

Transactions get increasing numbers and end in any order. A row is stamped with the number of the
transaction that last wrote it, and a row that was deleted keeps its stamp. A reader that saw a snapshot
keeps its `Versions.xmin`, the number of the oldest transaction running then, and reads later only the rows
stamped with it or a later one.

`Versions.Since` is the invariant of such a reader: a row is as in the snapshot or has such a stamp.
`since_xmin` is a first read, `Since.write` what the transactions do meanwhile, and `Since.overlay` says that
what is read later completes the snapshot.
-/

set_option autoImplicit false
set_option relaxedAutoImplicit false

namespace Holbuild.Library

/-- Rows by key, the numbers of their last writers and of the transactions that run, and the next number. -/
structure Versions (κ α : Type*) where
  row : κ → Option α
  stamp : κ → ℕ
  running : List ℕ
  next : ℕ

namespace Versions

variable {κ α : Type*} {v v' : Versions κ α} {snapshot : κ → Option α} {since : ℕ}

/-- The number of the oldest transaction that runs, or the next one. -/
def xmin (v : Versions κ α) : ℕ := v.running.foldl min v.next

/-- What transactions do: one that runs may stamp rows with its number, and new ones get new numbers. -/
structure Writes (v v' : Versions κ α) : Prop where
  running : ∀ x ∈ v'.running, x ∈ v.running ∨ v.next ≤ x
  next_le : v.next ≤ v'.next
  row : ∀ k, v'.row k = v.row k ∧ v'.stamp k = v.stamp k ∨ v'.stamp k ∈ v.running

/-- Every row is as in the snapshot or was written since, and so will be. -/
structure Since (v : Versions κ α) (snapshot : κ → Option α) (since : ℕ) : Prop where
  le_running : ∀ x ∈ v.running, since ≤ x
  le_next : since ≤ v.next
  row : ∀ k, v.row k = snapshot k ∨ since ≤ v.stamp k

theorem foldl_min_le (next : ℕ) (running : List ℕ) :
    running.foldl min next ≤ next ∧ ∀ x ∈ running, running.foldl min next ≤ x := by
  induction running generalizing next with
  | nil => exact ⟨le_rfl, nofun⟩
  | cons y rest ih =>
    obtain ⟨hle, hrest⟩ := ih (min next y)
    refine ⟨hle.trans (min_le_left next y), fun x hx ↦ ?_⟩
    rcases List.mem_cons.mp hx with rfl | hx
    · exact hle.trans (min_le_right next x)
    · exact hrest x hx

/-- A reader of every row is up to date. -/
theorem since_xmin (v : Versions κ α) : v.Since v.row v.xmin where
  le_running := (foldl_min_le v.next v.running).2
  le_next := (foldl_min_le v.next v.running).1
  row _ := Or.inl rfl

/-- What transactions write is stamped later than the snapshot. -/
theorem Since.write (hv : v.Since snapshot since) (hwrites : v.Writes v') :
    v'.Since snapshot since := by
  refine ⟨fun x hx ↦ ?_, hv.le_next.trans hwrites.next_le, fun k ↦ ?_⟩
  · rcases hwrites.running x hx with hx | hx
    · exact hv.le_running x hx
    · exact hv.le_next.trans hx
  · rcases hwrites.row k with ⟨hrow, hstamp⟩ | hx
    · rw [hrow, hstamp]
      exact hv.row k
    · exact Or.inr (hv.le_running _ hx)

/-- Assumes: no row of the snapshot is gone. The rows stamped since, laid over the snapshot, are the rows. -/
theorem Since.overlay (hv : v.Since snapshot since)
    (hkept : ∀ k, (snapshot k).isSome → (v.row k).isSome) (k : κ) :
    ((v.row k).filter (fun _ ↦ since ≤ v.stamp k)).or (snapshot k) = v.row k := by
  cases hrow : v.row k with
  | none =>
    have hgone : snapshot k = none := by
      by_contra hne
      have hsome := hkept k (Option.isSome_iff_ne_none.mpr hne)
      rw [hrow] at hsome
      cases hsome
    rw [hgone]
    rfl
  | some a =>
    by_cases hstamp : since ≤ v.stamp k
    · rw [Option.filter_some_pos (by simpa using hstamp), Option.some_or]
    · have hsame := (hv.row k).resolve_right hstamp
      rw [Option.filter_some_neg (by simpa using hstamp), Option.none_or, ← hsame, hrow]

end Versions

end Holbuild.Library
