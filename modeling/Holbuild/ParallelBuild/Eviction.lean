import Holbuild.Library.Texts
import Mathlib.Data.Int.Notation
import Mathlib.Tactic.Tauto

/-!
# Evicting checkpoint families

`evictFromIndexExcluding` removes the families of an index that are not protected, the oldest first,
until the rest fits the budget. A family whose artifacts survive their removal stays in the index.
-/

set_option autoImplicit false
set_option relaxedAutoImplicit false

namespace Holbuild.ParallelBuild

open Library

/-- The checkpoint artifacts of one base path. -/
structure CheckpointFamily where
  base : Text
  mtime : ℤ
  bytes : ℤ
deriving DecidableEq, Repr

structure CheckpointIndex where
  families : List CheckpointFamily
  totalBytes : ℤ
deriving DecidableEq, Repr

/-! ### Oldest first -/

/-- Deals a list out to two. -/
def dealOut : List CheckpointFamily → List CheckpointFamily → List CheckpointFamily →
    List CheckpointFamily × List CheckpointFamily
  | left, right, [] => (left, right)
  | left, right, [x] => (x :: left, right)
  | left, right, x :: y :: more => dealOut (x :: left) (y :: right) more

def mergeByMtime : List CheckpointFamily → List CheckpointFamily → List CheckpointFamily
  | [], right => right
  | left, [] => left
  | x :: xs, y :: ys =>
    if x.mtime ≤ y.mtime then x :: mergeByMtime xs (y :: ys) else y :: mergeByMtime (x :: xs) ys

/-- Merge sort, in a depth of recursion that the list's length bounds. -/
def sortByMtime : ℕ → List CheckpointFamily → List CheckpointFamily
  | _, [] => []
  | _, [x] => [x]
  | 0, families => families
  | depth + 1, families =>
    let halves := dealOut [] [] families
    mergeByMtime (sortByMtime depth halves.1) (sortByMtime depth halves.2)

def sortFamiliesByMtimeAscending (families : List CheckpointFamily) : List CheckpointFamily :=
  sortByMtime families.length families

variable {family : CheckpointFamily}

theorem mem_dealOut (left right families : List CheckpointFamily) :
    family ∈ (dealOut left right families).1 ∨ family ∈ (dealOut left right families).2 ↔
      family ∈ left ∨ family ∈ right ∨ family ∈ families := by
  induction left, right, families using dealOut.induct with
  | case1 left right => simp [dealOut]
  | case2 left right x =>
    simp only [dealOut, List.mem_cons, List.not_mem_nil, or_false]
    tauto
  | case3 left right x y more ih =>
    rw [dealOut, ih]
    simp only [List.mem_cons]
    tauto

theorem mem_mergeByMtime (left right : List CheckpointFamily) :
    family ∈ mergeByMtime left right ↔ family ∈ left ∨ family ∈ right := by
  induction left, right using mergeByMtime.induct with
  | case1 right => simp [mergeByMtime]
  | case2 left hleft => cases left <;> simp [mergeByMtime]
  | case3 x xs y ys hle ih =>
    rw [mergeByMtime, if_pos hle, List.mem_cons, ih]
    simp only [List.mem_cons]
    tauto
  | case4 x xs y ys hle ih =>
    rw [mergeByMtime, if_neg hle, List.mem_cons, ih]
    simp only [List.mem_cons]
    tauto

/-- Sorting keeps the families. -/
theorem mem_sortByMtime (depth : ℕ) (families : List CheckpointFamily) :
    family ∈ sortByMtime depth families ↔ family ∈ families := by
  induction depth, families using sortByMtime.induct with
  | case1 depth => simp [sortByMtime]
  | case2 depth x => simp [sortByMtime]
  | case3 families hnil hsingle => simp [sortByMtime]
  | case4 depth families hnil hsingle halves ihleft ihright =>
    rw [sortByMtime, mem_mergeByMtime, ihleft, ihright, mem_dealOut]
    · simp
    · exact hnil
    · exact hsingle

/-! ### Eviction -/

/-- What an eviction did: the families it tried to remove, in order, the bytes freed, and the families
that are gone. -/
structure Eviction where
  attempted : List Text
  freed : ℤ
  removedBases : List Text
deriving DecidableEq, Repr

/-- Removes families in turn until the rest fits; one that `resists` still exists afterwards. -/
def evict (resists : Text → Bool) (beforeBytes maxBytes : ℤ) :
    List CheckpointFamily → Eviction → Eviction
  | [], done => done
  | family :: rest, done =>
    let attempted := done.attempted ++ [family.base]
    if resists family.base then
      evict resists beforeBytes maxBytes rest { done with attempted := attempted }
    else
      let done' : Eviction :=
        ⟨attempted, done.freed + family.bytes, family.base :: done.removedBases⟩
      if beforeBytes - done'.freed ≤ maxBytes then done'
      else evict resists beforeBytes maxBytes rest done'

/-- The families of an index that are not protected. -/
def evictable (index : CheckpointIndex) (protectedBases : List Text) : List CheckpointFamily :=
  index.families.filter fun family ↦ family.base ∉ protectedBases

def evictFromIndexExcluding (resists : Text → Bool) (index : CheckpointIndex) (maxBytes : ℤ)
    (protectedBases : List Text) : CheckpointIndex × Eviction :=
  let sorted := sortFamiliesByMtimeAscending (evictable index protectedBases)
  let overBudget := !(maxBytes ≤ 0 || index.totalBytes ≤ maxBytes)
  let eviction := if overBudget then evict resists index.totalBytes maxBytes sorted ⟨[], 0, []⟩
    else ⟨[], 0, []⟩
  (⟨index.families.filter fun family ↦ family.base ∉ eviction.removedBases,
    index.totalBytes - eviction.freed⟩, eviction)

variable {resists : Text → Bool} {maxBytes : ℤ} {base : Text}

/-- What an eviction tries to remove is a family it was given. -/
theorem mem_attempted_evict {beforeBytes : ℤ} {families : List CheckpointFamily} :
    ∀ {done : Eviction}, base ∈ (evict resists beforeBytes maxBytes families done).attempted →
      base ∈ done.attempted ∨ ∃ family ∈ families, family.base = base := by
  induction families with
  | nil => exact fun hbase ↦ .inl hbase
  | cons family rest ih =>
    intro done hbase
    have hlast : base ∈ done.attempted ++ [family.base] →
        base ∈ done.attempted ∨ ∃ other ∈ family :: rest, other.base = base := by
      intro h
      rcases List.mem_append.mp h with hold | hnew
      · exact .inl hold
      · exact .inr ⟨family, List.mem_cons_self, (List.mem_singleton.mp hnew).symm⟩
    have hrest : (base ∈ done.attempted ++ [family.base] ∨ ∃ other ∈ rest, other.base = base) →
        base ∈ done.attempted ∨ ∃ other ∈ family :: rest, other.base = base := by
      rintro (h | ⟨other, hother, heq⟩)
      · exact hlast h
      · exact .inr ⟨other, List.mem_cons_of_mem _ hother, heq⟩
    rw [evict] at hbase
    split at hbase
    · exact hrest (ih hbase)
    · dsimp only at hbase
      split at hbase
      · exact hlast hbase
      · exact hrest (ih hbase)

/-- An eviction tries to remove no protected family. -/
theorem notMem_protected_of_attempted {index : CheckpointIndex} {protectedBases : List Text}
    (hbase : base ∈ (evictFromIndexExcluding resists index maxBytes protectedBases).2.attempted) :
    base ∉ protectedBases := by
  dsimp only [evictFromIndexExcluding] at hbase
  split at hbase
  · rcases mem_attempted_evict hbase with hnil | ⟨family, hfamily, rfl⟩
    · cases hnil
    · have hevictable := (mem_sortByMtime _ _).mp hfamily
      simpa using (List.mem_filter.mp hevictable).2
  · cases hbase

end Holbuild.ParallelBuild
