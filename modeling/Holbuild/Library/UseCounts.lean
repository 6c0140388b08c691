import Mathlib.Data.List.Count
import Mathlib.Data.List.Nodup
import Mathlib.Logic.Function.Basic

/-!
# Counts of users

Items are shared by holders. `countUses` counts for each item the holders that have it, and `release`
takes one use from each item of a holder that goes and lists those whose last use it was. With each item
listed once in a holder, a count is the number of holders that have the item (`countUses_eq`), and what
is released is what was used once (`release_spec`).
-/

set_option autoImplicit false
set_option relaxedAutoImplicit false

namespace Holbuild.Library

variable {α : Type*} [DecidableEq α]

/-- One use more of each item. -/
def addUses (users : α → ℕ) (items : List α) : α → ℕ :=
  items.foldl (fun users item ↦ Function.update users item (users item + 1)) users

/-- The uses of the items of all holders. -/
def countUses (holders : List (List α)) : α → ℕ := holders.foldl addUses fun _ ↦ 0

/-- One use less of each item, and the items that were used once. -/
def release (users : α → ℕ) : List α → (α → ℕ) × List α
  | [] => (users, [])
  | item :: rest =>
    let released := release (Function.update users item (users item - 1)) rest
    (released.1, if users item = 1 then item :: released.2 else released.2)

theorem addUses_apply {items : List α} (hnodup : items.Nodup) (item : α) :
    ∀ users : α → ℕ, addUses users items item = users item + if item ∈ items then 1 else 0 := by
  induction items with
  | nil => exact fun users ↦ rfl
  | cons first rest ih =>
    intro users
    obtain ⟨hfirst, hrest⟩ := List.nodup_cons.mp hnodup
    show addUses (Function.update users first (users first + 1)) rest item = _
    rw [ih hrest]
    by_cases heq : item = first
    · subst heq
      rw [Function.update_self, if_neg hfirst, if_pos List.mem_cons_self]
    · rw [Function.update_of_ne heq]
      simp only [List.mem_cons, heq, false_or]

/-- Assumes: no holder lists an item twice. An item's count is the number of holders that have it. -/
theorem countUses_eq {holders : List (List α)} (hnodup : ∀ items ∈ holders, items.Nodup) (item : α) :
    countUses holders item = holders.countP fun items ↦ item ∈ items := by
  have hfold : ∀ users : α → ℕ, holders.foldl addUses users item =
      users item + holders.countP fun items ↦ item ∈ items := by
    induction holders with
    | nil => exact fun users ↦ rfl
    | cons items rest ih =>
      intro users
      obtain ⟨hitems, hrest⟩ := List.forall_mem_cons.mp hnodup
      rw [List.foldl_cons, ih hrest, addUses_apply hitems, List.countP_cons]
      simp only [decide_eq_true_eq]
      omega
  rw [countUses, hfold, Nat.zero_add]

/-- Assumes: each item once. Every item loses one use, and those used once are released. -/
theorem release_spec {items : List α} (hnodup : items.Nodup) : ∀ users : α → ℕ,
    (∀ item, (release users items).1 item = if item ∈ items then users item - 1 else users item) ∧
      (release users items).2 = items.filter fun item ↦ users item = 1 := by
  induction items with
  | nil => exact fun users ↦ ⟨fun item ↦ rfl, rfl⟩
  | cons first rest ih =>
    intro users
    obtain ⟨hfirst, hrest⟩ := List.nodup_cons.mp hnodup
    obtain ⟨hcounts, hreleased⟩ := ih hrest (Function.update users first (users first - 1))
    constructor
    · intro item
      show (release _ rest).1 item = _
      rw [hcounts]
      by_cases heq : item = first
      · subst heq
        rw [if_neg hfirst, if_pos List.mem_cons_self, Function.update_self]
      · rw [Function.update_of_ne heq]
        simp only [List.mem_cons, heq, false_or]
    · have hsame : (rest.filter fun item ↦
          Function.update users first (users first - 1) item = 1) =
            rest.filter fun item ↦ users item = 1 := by
        refine List.filter_congr fun item hitem ↦ ?_
        have hne : item ≠ first := fun heq ↦ hfirst (heq ▸ hitem)
        rw [Function.update_of_ne hne]
      show (if users first = 1 then first :: (release _ rest).2 else (release _ rest).2) = _
      rw [hreleased, hsame, List.filter_cons]
      simp only [decide_eq_true_eq]

end Holbuild.Library
