import Mathlib.Algebra.BigOperators.Group.List.Basic
import Mathlib.Algebra.Order.BigOperators.Group.List
import Mathlib.Algebra.Order.Ring.Int
import Mathlib.Data.List.Forall2
import Mathlib.Tactic.Linarith

/-!
# Tables whose rows change in place

A statement that updates a table changes each row in place: `Evolve change rows rows'` says that
every row of `rows` became the row of `rows'` in its position as `change` allows. Evolutions compose
(`Evolve.trans`), a row after one has a row before (`Evolve.exists_before`) and the other way round
(`Evolve.exists_after`), and a column that no change touches is the same list
(`Evolve.map_eq`). With a key column that no change touches, looking a key up commutes with an
evolution (`Evolve.find?`), and a sum over the rows of the other keys can only grow when its terms
do (`Evolve.sumOthers_le`, `Evolve.sumOthers_lt`).
-/

set_option autoImplicit false
set_option relaxedAutoImplicit false

namespace Holbuild.Library

variable {α κ : Type*}

/-- Every row changed in place, as `change` allows. -/
def Evolve (change : α → α → Prop) (rows rows' : List α) : Prop := List.Forall₂ change rows rows'

/-- An update of every row is an evolution by what it does to each row. -/
theorem evolve_map {change : α → α → Prop} {rows : List α} {f : α → α}
    (hf : ∀ a ∈ rows, change a (f a)) : Evolve change rows (rows.map f) :=
  List.forall₂_map_right_iff.mpr (List.forall₂_same.mpr hf)

/-- Rows that stay the same evolve by any reflexive change. -/
theorem evolve_refl {change : α → α → Prop} (hrefl : ∀ a, change a a) (rows : List α) :
    Evolve change rows rows :=
  List.forall₂_same.mpr fun a _ ↦ hrefl a

/-- An evolution by a change is one by every weaker change. -/
theorem Evolve.imp {first second : α → α → Prop} {rows rows' : List α}
    (hrows : Evolve first rows rows') (himp : ∀ a a', first a a' → second a a') :
    Evolve second rows rows' :=
  List.Forall₂.imp himp hrows

/-- Evolutions compose. -/
theorem Evolve.trans {first second both : α → α → Prop} {rows rows₁ rows₂ : List α}
    (hfirst : Evolve first rows rows₁) (hsecond : Evolve second rows₁ rows₂)
    (hboth : ∀ a b c, first a b → second b c → both a c) : Evolve both rows rows₂ := by
  induction hfirst generalizing rows₂ with
  | nil => cases hsecond; exact .nil
  | cons hhead _ ih =>
    cases hsecond with
    | cons hhead' htail' => exact .cons (hboth _ _ _ hhead hhead') (ih htail')

/-- The rows that an evolution changes are rows of the table. -/
theorem Evolve.and_mem {change : α → α → Prop} {rows rows' : List α}
    (hrows : Evolve change rows rows') : Evolve (fun a a' ↦ a ∈ rows ∧ change a a') rows rows' := by
  induction hrows with
  | nil => exact .nil
  | cons hhead _ ih =>
    refine .cons ⟨List.mem_cons_self, hhead⟩ (List.Forall₂.imp (fun a a' h ↦ ?_) ih)
    exact ⟨List.mem_cons_of_mem _ h.1, h.2⟩

/-- A row after an evolution was some row before it. -/
theorem Evolve.exists_before {change : α → α → Prop} {rows rows' : List α}
    (hrows : Evolve change rows rows') {a' : α} (ha' : a' ∈ rows') : ∃ a ∈ rows, change a a' := by
  induction hrows with
  | nil => cases ha'
  | cons hhead _ ih =>
    rcases List.mem_cons.mp ha' with rfl | htail
    · exact ⟨_, List.mem_cons_self, hhead⟩
    · obtain ⟨a, ha, hchange⟩ := ih htail
      exact ⟨a, List.mem_cons_of_mem _ ha, hchange⟩

/-- A row before an evolution is some row after it. -/
theorem Evolve.exists_after {change : α → α → Prop} {rows rows' : List α}
    (hrows : Evolve change rows rows') {a : α} (ha : a ∈ rows) : ∃ a' ∈ rows', change a a' := by
  have hflip : Evolve (flip change) rows' rows := List.Forall₂.flip hrows
  exact hflip.exists_before ha

/-- Assumes: a column that the change leaves alone. It is the same list afterwards. -/
theorem Evolve.map_eq {β : Type*} {change : α → α → Prop} {rows rows' : List α}
    (hrows : Evolve change rows rows') {column : α → β}
    (hcolumn : ∀ a a', change a a' → column a' = column a) :
    rows'.map column = rows.map column := by
  induction hrows with
  | nil => rfl
  | cons hhead _ ih => rw [List.map_cons, List.map_cons, hcolumn _ _ hhead, ih]

/-- Rows that satisfy one condition are counted among those that satisfy one of two. -/
theorem countP_le_add {p q r : α → Bool} {rows : List α} (h : ∀ a ∈ rows, p a → q a ∨ r a) :
    rows.countP p ≤ rows.countP q + rows.countP r := by
  induction rows with
  | nil => exact Nat.zero_le _
  | cons a rest ih =>
    have hrest := ih fun b hb ↦ h b (List.mem_cons_of_mem a hb)
    have ha := h a List.mem_cons_self
    simp only [List.countP_cons]
    split_ifs <;> simp_all <;> omega

section Keys

variable [DecidableEq κ] {key : α → κ}

/-- Assumes: a key column that the change leaves alone. Looking a key up finds the changed row. -/
theorem Evolve.find? {change : α → α → Prop} {rows rows' : List α}
    (hrows : Evolve change rows rows') (hkey : ∀ a a', change a a' → key a' = key a) (k : κ) :
    Option.Rel change (rows.find? (key · = k)) (rows'.find? (key · = k)) := by
  induction hrows with
  | nil => exact .none
  | @cons a a' _ _ hhead _ ih =>
    simp only [List.find?_cons, hkey _ _ hhead]
    by_cases hk : key a = k
    · simpa [hk] using Option.Rel.some hhead
    · simpa [hk] using ih

/-- In a table with distinct keys, looking up the key of a row finds the row. -/
theorem find?_eq_some_of_mem {rows : List α} (hnodup : (rows.map key).Nodup) {a : α}
    (ha : a ∈ rows) : rows.find? (key · = key a) = some a := by
  induction rows with
  | nil => cases ha
  | cons b rest ih =>
    obtain ⟨hb, hrest⟩ := List.nodup_cons.mp hnodup
    rcases List.mem_cons.mp ha with rfl | ha
    · simp
    · have hne : key b ≠ key a := fun heq ↦ hb (heq ▸ List.mem_map_of_mem ha)
      rw [List.find?_cons_of_neg (by simpa using hne)]
      exact ih hrest ha

/-- Two rows of a table with distinct keys that share a key are the same row. -/
theorem eq_of_key_eq {rows : List α} (hnodup : (rows.map key).Nodup) {a b : α} (ha : a ∈ rows)
    (hb : b ∈ rows) (heq : key a = key b) : a = b := by
  have hfind := find?_eq_some_of_mem hnodup ha
  rw [heq, find?_eq_some_of_mem hnodup hb] at hfind
  exact (Option.some.inj hfind).symm

/-- The sum of a column over the rows with another key. -/
def sumOthers (key : α → κ) (column : α → ℤ) (k : κ) (rows : List α) : ℤ :=
  ((rows.filter (key · ≠ k)).map column).sum

theorem sumOthers_cons (column : α → ℤ) (k : κ) (a : α) (rows : List α) :
    sumOthers key column k (a :: rows) =
      (if key a = k then 0 else column a) + sumOthers key column k rows := by
  by_cases hk : key a = k <;> simp [sumOthers, hk]

/-- Assumes: a change that leaves the keys alone and lets no entry of the column shrink. The sum over
the other rows does not shrink. -/
theorem Evolve.sumOthers_le {change : α → α → Prop} {rows rows' : List α}
    (hrows : Evolve change rows rows') (hkey : ∀ a a', change a a' → key a' = key a)
    {column : α → ℤ} (hcolumn : ∀ a a', change a a' → column a ≤ column a') (k : κ) :
    sumOthers key column k rows ≤ sumOthers key column k rows' := by
  induction hrows with
  | nil => exact le_rfl
  | cons hhead _ ih =>
    rw [sumOthers_cons, sumOthers_cons, hkey _ _ hhead]
    have hle := hcolumn _ _ hhead
    split <;> omega

/-- Assumes: a change that leaves the keys alone and lets no entry of the column shrink, and a row
with another key whose entry grows. The sum over the other rows grows. -/
theorem Evolve.sumOthers_lt {change : α → α → Prop} {rows rows' : List α}
    (hrows : Evolve change rows rows') (hkey : ∀ a a', change a a' → key a' = key a)
    {column : α → ℤ} (hcolumn : ∀ a a', change a a' → column a ≤ column a') {k : κ} {a : α}
    (ha : a ∈ rows) (hk : key a ≠ k) (hgrows : ∀ a', change a a' → column a < column a') :
    sumOthers key column k rows < sumOthers key column k rows' := by
  induction hrows with
  | nil => cases ha
  | cons hhead htail ih =>
    rw [sumOthers_cons, sumOthers_cons, hkey _ _ hhead]
    rcases List.mem_cons.mp ha with rfl | ha
    · have hlt := hgrows _ hhead
      have hle := Evolve.sumOthers_le htail hkey hcolumn k
      rw [if_neg hk, if_neg hk]
      omega
    · have hlt := ih ha
      have hle := hcolumn _ _ hhead
      split <;> omega

/-- Assumes: entries of the column within bounds. The sum over the rows with another key than that of
some row is at most the bound once for each row but that one. -/
theorem sumOthers_le_of_forall {column : α → ℤ} {bound : ℤ} {rows : List α} (hbound : 0 ≤ bound)
    (hcolumn : ∀ a ∈ rows, column a ≤ bound) {k : κ} (hk : k ∈ rows.map key) :
    sumOthers key column k rows ≤ bound * (rows.length - 1) := by
  have hall : ∀ rest : List α, (∀ a ∈ rest, column a ≤ bound) →
      sumOthers key column k rest ≤ bound * rest.length := by
    intro rest hrest
    induction rest with
    | nil => simp [sumOthers]
    | cons a rest ih =>
      have hle := ih fun b hb ↦ hrest b (List.mem_cons_of_mem a hb)
      have ha := hrest a List.mem_cons_self
      rw [sumOthers_cons, List.length_cons]
      push_cast
      split <;> linarith
  induction rows with
  | nil => simp at hk
  | cons a rest ih =>
    have hrest : ∀ b ∈ rest, column b ≤ bound := fun b hb ↦ hcolumn b (List.mem_cons_of_mem a hb)
    rw [sumOthers_cons, List.length_cons]
    push_cast
    by_cases ha : key a = k
    · rw [if_pos ha]
      have hle := hall rest hrest
      linarith
    · have htail : k ∈ rest.map key := by
        rcases List.mem_cons.mp hk with heq | htail
        · exact absurd heq.symm ha
        · exact htail
      have hle := ih hrest htail
      have hle' := hcolumn a List.mem_cons_self
      rw [if_neg ha]
      linarith

/-- A sum of entries that are not negative is not negative. -/
theorem sumOthers_nonneg {column : α → ℤ} {rows : List α} (hcolumn : ∀ a ∈ rows, 0 ≤ column a)
    (k : κ) : 0 ≤ sumOthers key column k rows := by
  refine List.sum_nonneg fun entry hentry ↦ ?_
  obtain ⟨a, ha, rfl⟩ := List.mem_map.mp hentry
  exact hcolumn a (List.mem_filter.mp ha).1

end Keys

end Holbuild.Library
