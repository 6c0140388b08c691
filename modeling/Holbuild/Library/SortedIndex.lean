import Mathlib.Data.List.Basic
import Mathlib.Order.Compare
import Mathlib.Order.Lattice

/-!
# Merge sort and binary search in sorted indexes

`sortPairs` is the merge sort that deals the elements out alternately. An index is a list of keys
with values, sorted by key; `lookup?` searches it by halving (`lookup?_eq_some_iff`).
`lookup?_sortPairs` is the index of entries with distinct keys. `group` collects the entries of equal
keys, and `lookup?_group` finds, in their order, all values of a key.
-/

set_option autoImplicit false
set_option relaxedAutoImplicit false

namespace Holbuild.Library

variable {α β κ : Type*}

/-! ### Merge sort -/

/-- Deals the elements of a list out onto two lists. -/
def splitPairs : List α → List α → List α → List α × List α
  | left, right, [] => (left, right)
  | left, right, [x] => (x :: left, right)
  | left, right, x :: y :: rest => splitPairs (x :: left) (y :: right) rest

theorem splitPairs_perm (left right rest : List α) :
    ((splitPairs left right rest).1 ++ (splitPairs left right rest).2).Perm
      (left ++ right ++ rest) := by
  induction left, right, rest using splitPairs.induct with
  | case1 left right => simp [splitPairs]
  | case2 left right x =>
    rw [splitPairs, List.cons_append]
    exact List.perm_append_singleton x (left ++ right) |>.symm
  | case3 left right x y rest ih =>
    rw [splitPairs]
    refine ih.trans ?_
    have hmiddle : (x :: left ++ y :: right).Perm (left ++ right ++ [x, y]) := by
      calc (x :: left ++ y :: right).Perm (x :: y :: (left ++ right)) :=
            List.perm_middle.cons x
        _ |>.Perm (left ++ right ++ [x, y]) := @List.perm_append_comm _ [x, y] _
    simpa [List.append_assoc] using hmiddle.append_right rest

theorem length_splitPairs (left right rest : List α) :
    (splitPairs left right rest).1.length + (splitPairs left right rest).2.length =
      left.length + right.length + rest.length := by
  have h := (splitPairs_perm left right rest).length_eq
  simpa [List.length_append, Nat.add_assoc] using h

/-- The two lists only grow while the elements are dealt out. -/
theorem le_length_splitPairs (left right rest : List α) :
    left.length ≤ (splitPairs left right rest).1.length ∧
      right.length ≤ (splitPairs left right rest).2.length := by
  induction left, right, rest using splitPairs.induct with
  | case1 left right => simp [splitPairs]
  | case2 left right x => simp [splitPairs]
  | case3 left right x y rest ih =>
    rw [splitPairs]
    simp only [List.length_cons] at ih
    omega

/-- Merges two lists, taking from the first where the comparison allows it. -/
def mergePairs (le : α → α → Bool) (left right : List α) : List α :=
  match left, right with
  | [], _ => right
  | _, [] => left
  | l :: ls, r :: rs =>
    if le l r then l :: mergePairs le ls (r :: rs) else r :: mergePairs le (l :: ls) rs
termination_by left.length + right.length

theorem mergePairs_eq_merge (le : α → α → Bool) (left right : List α) :
    mergePairs le left right = left.merge right le := by
  induction left, right using mergePairs.induct le with
  | case1 right => simp [mergePairs]
  | case2 left => cases left <;> simp [mergePairs]
  | case3 l ls r rs hle ih => rw [mergePairs, if_pos hle, ih, List.cons_merge_cons, if_pos hle]
  | case4 l ls r rs hle ih => rw [mergePairs, if_neg hle, ih, List.cons_merge_cons, if_neg hle]

/-- Merge sort, dealing the elements out alternately. -/
def sortPairs (le : α → α → Bool) (xs : List α) : List α :=
  match xs with
  | [] => []
  | [x] => [x]
  | x :: y :: rest =>
    mergePairs le (sortPairs le (splitPairs [x] [y] rest).1)
      (sortPairs le (splitPairs [x] [y] rest).2)
termination_by xs.length
decreasing_by
  all_goals
    have hsum := length_splitPairs [x] [y] rest
    have hle := le_length_splitPairs [x] [y] rest
    simp only [List.length_cons, List.length_nil] at *
    omega

variable {le : α → α → Bool}

theorem sortPairs_perm (xs : List α) : (sortPairs le xs).Perm xs := by
  induction xs using sortPairs.induct with
  | case1 => simp [sortPairs]
  | case2 x => simp [sortPairs]
  | case3 x y rest ihleft ihright =>
    rw [sortPairs, mergePairs_eq_merge]
    refine (List.merge_perm_append le).trans ((ihleft.append ihright).trans ?_)
    exact splitPairs_perm [x] [y] rest

/-- Assumes: the comparison is transitive and total. The sorted list is in order. -/
theorem pairwise_sortPairs (htrans : ∀ a b c, le a b → le b c → le a c)
    (htotal : ∀ a b, le a b || le b a) (xs : List α) :
    (sortPairs le xs).Pairwise fun a b ↦ le a b := by
  induction xs using sortPairs.induct with
  | case1 => simp [sortPairs]
  | case2 x => simp [sortPairs]
  | case3 x y rest ihleft ihright =>
    rw [sortPairs, mergePairs_eq_merge]
    exact List.pairwise_merge htrans htotal _ _ ihleft ihright

/-! ### Binary search -/

section Search

variable [LinearOrder κ]

/-- Searches the positions from `lo` up to, excluding, `hi`. -/
def search (index : List (κ × β)) (key : κ) (lo hi : ℕ) : Option β :=
  if lo < hi then
    let mid := (lo + (hi - 1)) / 2
    match index[mid]? with
    | some (candidate, value) =>
      match compare key candidate with
      | .lt => search index key lo mid
      | .gt => search index key (mid + 1) hi
      | .eq => some value
    | none => none
  else none
termination_by hi - lo

/-- The value of a key in a sorted index. -/
def lookup? (index : List (κ × β)) (key : κ) : Option β := search index key 0 index.length

/-- The keys of an index increase strictly. -/
def Sorted (index : List (κ × β)) : Prop := index.Pairwise fun a b ↦ a.1 < b.1

variable {index : List (κ × β)} {key : κ} {value : β}

theorem mem_of_search {lo hi : ℕ} (h : search index key lo hi = some value) :
    (key, value) ∈ index := by
  induction lo, hi using search.induct index key with
  | case1 lo hi hlt mid candidate value' hget hcompare ih =>
    rw [search, if_pos hlt] at h
    simp only [mid] at hget hcompare
    simp only [hget, hcompare] at h
    exact ih h
  | case2 lo hi hlt mid candidate value' hget hcompare ih =>
    rw [search, if_pos hlt] at h
    simp only [mid] at hget hcompare
    simp only [hget, hcompare] at h
    exact ih h
  | case3 lo hi hlt mid candidate value' hget hcompare =>
    rw [search, if_pos hlt] at h
    simp only [mid] at hget
    simp only [hget, hcompare, Option.some.injEq] at h
    obtain rfl := compare_eq_iff_eq.mp hcompare
    exact h ▸ List.mem_of_getElem? hget
  | case4 lo hi hlt mid hget =>
    rw [search, if_pos hlt] at h
    simp only [mid] at hget
    simp [hget] at h
  | case5 lo hi hlt =>
    rw [search, if_neg hlt] at h
    cases h

/-- In a sorted index an entry is found from any bounds around its position. -/
theorem search_eq_some (hsorted : Sorted index) {i : ℕ} (hentry : index[i]? = some (key, value))
    {lo hi : ℕ} (hlo : lo ≤ i) (hhi : i < hi) (hlength : hi ≤ index.length) :
    search index key lo hi = some value := by
  have hlt : ∀ (j k : ℕ) (a b : κ × β), index[j]? = some a → index[k]? = some b → j < k → a.1 < b.1 := by
    intro j k a b ha hb hjk
    obtain ⟨hj, rfl⟩ := List.getElem?_eq_some_iff.mp ha
    obtain ⟨hk, rfl⟩ := List.getElem?_eq_some_iff.mp hb
    exact List.pairwise_iff_getElem.mp hsorted j k hj hk hjk
  induction lo, hi using search.induct index key with
  | case1 lo hi hlohi mid candidate value' hget hcompare ih =>
    rw [search, if_pos hlohi]
    simp only [mid] at hget hcompare ih
    simp only [hget, hcompare]
    refine ih hlo ?_ (by omega)
    by_contra hge
    have hkey := compare_lt_iff_lt.mp hcompare
    rcases Nat.lt_or_eq_of_le (Nat.not_lt.mp hge) with hmid | hmid
    · exact lt_asymm hkey (hlt _ _ _ _ hget hentry hmid)
    · rw [hmid, hentry] at hget
      cases hget
      exact lt_irrefl _ hkey
  | case2 lo hi hlohi mid candidate value' hget hcompare ih =>
    rw [search, if_pos hlohi]
    simp only [mid] at hget hcompare ih
    simp only [hget, hcompare]
    refine ih ?_ hhi hlength
    by_contra hge
    have hkey := compare_gt_iff_gt.mp hcompare
    rcases Nat.lt_or_eq_of_le (Nat.lt_succ_iff.mp (Nat.not_le.mp hge)) with hmid | hmid
    · exact lt_asymm hkey (hlt _ _ _ _ hentry hget hmid)
    · rw [← hmid, hentry] at hget
      cases hget
      exact lt_irrefl _ hkey
  | case3 lo hi hlohi mid candidate value' hget hcompare =>
    rw [search, if_pos hlohi]
    simp only [mid] at hget
    simp only [hget, hcompare]
    obtain rfl := compare_eq_iff_eq.mp hcompare
    rcases Nat.lt_trichotomy i ((lo + (hi - 1)) / 2) with hmid | hmid | hmid
    · exact absurd (hlt _ _ _ _ hentry hget hmid) (lt_irrefl _)
    · rw [← hmid, hentry] at hget
      cases hget
      rfl
    · exact absurd (hlt _ _ _ _ hget hentry hmid) (lt_irrefl _)
  | case4 lo hi hlohi mid hget =>
    simp only [mid, List.getElem?_eq_none_iff] at hget
    omega
  | case5 lo hi hlohi => omega

/-- In a sorted index exactly the entries are found. -/
theorem lookup?_eq_some_iff (hsorted : Sorted index) :
    lookup? index key = some value ↔ (key, value) ∈ index := by
  refine ⟨mem_of_search, fun hmem ↦ ?_⟩
  obtain ⟨i, hi⟩ := List.mem_iff_getElem?.mp hmem
  have hlength : i < index.length := (List.getElem?_eq_some_iff.mp hi).1
  exact search_eq_some hsorted hi (Nat.zero_le i) hlength (Nat.le_refl _)

/-! ### Indexes of entries -/

/-- The entry's key is not after the other's. -/
def byKey (a b : κ × β) : Bool := compare a.1 b.1 ≠ .gt

theorem byKey_iff {a b : κ × β} : byKey a b ↔ a.1 ≤ b.1 := by
  rw [byKey, decide_eq_true_eq, compare_le_iff_le.symm]

/-- The keys of sorted entries do not decrease. -/
theorem pairwise_byKey (pairs : List (κ × β)) :
    (sortPairs byKey pairs).Pairwise fun a b ↦ a.1 ≤ b.1 := by
  have htrans : ∀ a b c : κ × β, byKey a b → byKey b c → byKey a c := by
    intro a b c hab hbc
    exact byKey_iff.mpr ((byKey_iff.mp hab).trans (byKey_iff.mp hbc))
  have htotal : ∀ a b : κ × β, byKey a b || byKey b a := by
    intro a b
    rcases le_total a.1 b.1 with hab | hba
    · simp [byKey_iff.mpr hab]
    · simp [byKey_iff.mpr hba]
  exact (pairwise_sortPairs htrans htotal pairs).imp byKey_iff.mp

/-- The entry's key is not after the other's, nor, for equal keys, its second key after the other's. -/
def byKeys (second : β → κ) (a b : κ × β) : Bool :=
  match compare a.1 b.1 with
  | .eq => compare (second a.2) (second b.2) ≠ .gt
  | order => order ≠ .gt

theorem byKeys_iff {second : β → κ} {a b : κ × β} :
    byKeys second a b ↔ a.1 < b.1 ∨ a.1 = b.1 ∧ second a.2 ≤ second b.2 := by
  rw [byKeys]
  rcases lt_trichotomy a.1 b.1 with hlt | heq | hgt
  · rw [compare_lt_iff_lt.mpr hlt]
    simp [hlt]
  · rw [compare_eq_iff_eq.mpr heq]
    simp [heq, compare_le_iff_le.symm]
  · rw [compare_gt_iff_gt.mpr hgt]
    simp [hgt.le, hgt.ne']

/-- The keys of entries sorted by two keys do not decrease. -/
theorem pairwise_byKeys (second : β → κ) (pairs : List (κ × β)) :
    (sortPairs (byKeys second) pairs).Pairwise fun a b ↦ a.1 ≤ b.1 := by
  have htrans : ∀ a b c : κ × β, byKeys second a b → byKeys second b c → byKeys second a c := by
    intro a b c hab hbc
    rw [byKeys_iff] at hab hbc ⊢
    rcases hab with hab | ⟨hab, hkab⟩ <;> rcases hbc with hbc | ⟨hbc, hkbc⟩
    · exact .inl (hab.trans hbc)
    · exact .inl (hbc ▸ hab)
    · exact .inl (hab ▸ hbc)
    · exact .inr ⟨hab.trans hbc, hkab.trans hkbc⟩
  have htotal : ∀ a b : κ × β, byKeys second a b || byKeys second b a := by
    intro a b
    rw [Bool.or_eq_true, byKeys_iff, byKeys_iff]
    rcases lt_trichotomy a.1 b.1 with hlt | heq | hgt
    · exact .inl (.inl hlt)
    · rcases le_total (second a.2) (second b.2) with hle | hle
      · exact .inl (.inr ⟨heq, hle⟩)
      · exact .inr (.inr ⟨heq.symm, hle⟩)
    · exact .inr (.inl hgt)
  refine (pairwise_sortPairs htrans htotal pairs).imp fun h ↦ ?_
  rcases byKeys_iff.mp h with hlt | ⟨heq, -⟩
  · exact hlt.le
  · exact heq.le

/-- Sorted entries with distinct keys are an index. -/
theorem sorted_of_nodup {pairs : List (κ × β)} (hle : pairs.Pairwise fun a b ↦ a.1 ≤ b.1)
    (hnodup : (pairs.map Prod.fst).Nodup) : Sorted pairs := by
  rw [List.Nodup, List.pairwise_map] at hnodup
  exact (hle.and hnodup).imp fun h ↦ lt_of_le_of_ne h.1 h.2

/-- Looking up in the sorted index of entries with distinct keys finds the entries. -/
theorem lookup?_sortPairs {pairs : List (κ × β)} (hnodup : (pairs.map Prod.fst).Nodup) :
    lookup? (sortPairs byKey pairs) key = some value ↔ (key, value) ∈ pairs := by
  have hperm : (sortPairs byKey pairs).Perm pairs := sortPairs_perm pairs
  have hnodup' : ((sortPairs byKey pairs).map Prod.fst).Nodup :=
    (hperm.map Prod.fst).nodup_iff.mpr hnodup
  rw [lookup?_eq_some_iff (sorted_of_nodup (pairwise_byKey pairs) hnodup'), hperm.mem_iff]

/-- Collects the values of the entries that have this key, newest first in `values`, and groups the
entries after them. -/
def collect (key : κ) (values : List β) : List (κ × β) → List (κ × List β)
  | [] => [(key, values.reverse)]
  | (key', value) :: rest =>
    if key' = key then collect key (value :: values) rest
    else (key, values.reverse) :: collect key' [value] rest

/-- Groups the entries of equal keys that follow each other. -/
def group : List (κ × β) → List (κ × List β)
  | [] => []
  | (key, value) :: rest => collect key [value] rest

/-- The values of the entries of a key. -/
def valuesOf (pairs : List (κ × β)) (key : κ) : List β :=
  (pairs.filter fun entry ↦ entry.1 = key).map Prod.snd

theorem valuesOf_cons (entry : κ × β) (rest : List (κ × β)) (key : κ) :
    valuesOf (entry :: rest) key =
      if entry.1 = key then entry.2 :: valuesOf rest key else valuesOf rest key := by
  by_cases hkey : entry.1 = key <;> simp [valuesOf, hkey]

/-- A key below all keys has no values. -/
theorem valuesOf_eq_nil {pairs : List (κ × β)} (h : ∀ entry ∈ pairs, key < entry.1) :
    valuesOf pairs key = [] := by
  rw [valuesOf, List.map_eq_nil_iff, List.filter_eq_nil_iff]
  intro entry hentry
  simpa using (h entry hentry).ne'

theorem collect_spec {rest : List (κ × β)} : ∀ {first : κ} {values : List β},
    (∀ entry ∈ rest, first ≤ entry.1) → rest.Pairwise (fun a b ↦ a.1 ≤ b.1) →
      Sorted (collect first values rest) ∧ (∀ entry ∈ collect first values rest, first ≤ entry.1) ∧
        ∀ k vs, (k, vs) ∈ collect first values rest ↔
          k = first ∧ vs = values.reverse ++ valuesOf rest first ∨
            k ≠ first ∧ vs = valuesOf rest k ∧ vs ≠ [] := by
  induction rest with
  | nil =>
    intro first values _ _
    refine ⟨List.pairwise_singleton _ _, ?_, fun k vs ↦ ?_⟩
    · intro entry hentry
      rw [collect, List.mem_singleton] at hentry
      exact hentry ▸ le_rfl
    · simp [collect, valuesOf]
  | cons entry rest ih =>
    intro first values hfirst hpairwise
    obtain ⟨hhead, htail⟩ := List.pairwise_cons.mp hpairwise
    obtain ⟨key', value⟩ := entry
    by_cases hkey : key' = first
    · subst hkey
      obtain ⟨hsorted, hle, hmem⟩ := @ih key' (value :: values) hhead htail
      rw [collect, if_pos rfl]
      refine ⟨hsorted, hle, fun k vs ↦ ?_⟩
      rw [hmem, valuesOf_cons, valuesOf_cons, if_pos rfl, List.reverse_cons, List.append_assoc,
        List.singleton_append]
      refine or_congr_right (and_congr_right fun hne ↦ ?_)
      rw [if_neg (Ne.symm hne)]
    · obtain ⟨hsorted, hle, hmem⟩ := @ih key' [value] hhead htail
      have hlt : first < key' := lt_of_le_of_ne (hfirst _ List.mem_cons_self) (Ne.symm hkey)
      have hbelow : valuesOf ((key', value) :: rest) first = [] := by
        apply valuesOf_eq_nil
        intro entry hentry
        rcases List.mem_cons.mp hentry with rfl | hrest
        · exact hlt
        · exact hlt.trans_le (hhead entry hrest)
      rw [collect, if_neg hkey]
      refine ⟨List.pairwise_cons.mpr ⟨fun entry hentry ↦ hlt.trans_le (hle entry hentry), hsorted⟩,
        ?_, fun k vs ↦ ?_⟩
      · intro entry hentry
        rcases List.mem_cons.mp hentry with rfl | hrest
        · exact le_rfl
        · exact hlt.le.trans (hle entry hrest)
      · rw [List.mem_cons, hmem, Prod.mk.injEq, hbelow, List.append_nil]
        by_cases hk : k = first
        · subst hk
          have hne : k ≠ key' := Ne.symm hkey
          have hrest : valuesOf rest k = [] := by
            rw [valuesOf_cons, if_neg hkey] at hbelow
            exact hbelow
          simp [hne, hrest]
        · by_cases hk' : k = key'
          · subst hk'
            have hne : ∀ vs, vs = value :: valuesOf rest k → vs ≠ [] := by
              rintro vs rfl
              exact List.cons_ne_nil _ _
            simpa [hk, valuesOf_cons] using hne vs
          · simp [hk, hk', valuesOf_cons, Ne.symm hk']

/-- Looking up a key in the groups of sorted entries finds its values, in their order. -/
theorem lookup?_group {pairs : List (κ × β)} (hle : pairs.Pairwise fun a b ↦ a.1 ≤ b.1) :
    (lookup? (group pairs) key).getD [] = valuesOf pairs key := by
  cases pairs with
  | nil =>
    rw [group, lookup?, search]
    simp [valuesOf]
  | cons entry rest =>
    obtain ⟨first, value⟩ := entry
    obtain ⟨hhead, htail⟩ := List.pairwise_cons.mp hle
    have hcollect : ∀ entry ∈ rest, first ≤ entry.1 := hhead
    obtain ⟨hsorted, -, hmem⟩ := @collect_spec _ _ _ rest first [value] hcollect htail
    rw [group]
    cases hlookup : lookup? (collect first [value] rest) key with
    | some vs =>
      rw [Option.getD_some]
      rcases (hmem key vs).mp ((lookup?_eq_some_iff hsorted).mp hlookup) with
        ⟨rfl, hvs⟩ | ⟨hne, hvs, _⟩
      · rw [hvs, valuesOf_cons, if_pos rfl]
        rfl
      · rw [hvs, valuesOf_cons, if_neg (Ne.symm hne)]
    | none =>
      rw [Option.getD_none]
      by_contra hvalues
      have hentry : (key, valuesOf ((first, value) :: rest) key) ∈
          collect first [value] rest := by
        rw [hmem]
        by_cases hkey : key = first
        · subst hkey
          exact .inl ⟨rfl, by rw [valuesOf_cons, if_pos rfl]; rfl⟩
        · refine .inr ⟨hkey, ?_, Ne.symm hvalues⟩
          rw [valuesOf_cons, if_neg (Ne.symm hkey)]
      exact absurd (hlookup.symm.trans ((lookup?_eq_some_iff hsorted).mpr hentry)) (by simp)

end Search

end Holbuild.Library
