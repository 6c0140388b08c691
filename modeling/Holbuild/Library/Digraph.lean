import Mathlib.Data.Fintype.Card
import Mathlib.Data.List.Perm.Basic
import Mathlib.Logic.Relation
import Mathlib.Order.Bounds.Basic
import Mathlib.Order.WellFoundedSet

/-!
# Finite directed graphs, topological orders and longest walks

A graph is given by the list of predecessors of each vertex. `staticOrder` visits the vertices in
rounds, each round taking every vertex whose predecessors were all taken before, and fails when a
round finds nothing to take. `staticOrder_eq_some` is its soundness: the order lists every vertex
once, after its predecessors (`ReadyOrder`). `staticOrder_isSome_iff` is the characterization of its
failure: an order exists exactly when no vertex precedes itself through a chain of predecessors
(`Acyclic`).

`foldl_update_eq` is the rule for a table filled along such an order, in which the entry of a vertex
is computed from the entries of its predecessors: the finished table satisfies the equation of every
vertex. `isGreatest_walk` and `transGen_iff_of_pred` are the two recursions such tables solve, the
length of the longest walk ending at a vertex and the set of vertices that precede it.
-/

set_option autoImplicit false
set_option relaxedAutoImplicit false

namespace Holbuild.Library

open Relation

variable {α : Type*}

/-! ### Acyclic relations -/

/-- No vertex precedes itself through a chain of one or more steps. -/
def Acyclic (r : α → α → Prop) : Prop := ∀ v, ¬ TransGen r v v

/-- A relation contained in an acyclic one is acyclic. -/
theorem Acyclic.mono {r s : α → α → Prop} (hs : Acyclic s) (hsub : ∀ a b, r a b → s a b) :
    Acyclic r :=
  fun v hv ↦ hs v (TransGen.mono hsub v v hv)

/-- Reversing every step keeps a relation acyclic. -/
theorem Acyclic.swap {r : α → α → Prop} (hr : Acyclic r) : Acyclic (Function.swap r) :=
  fun v hv ↦ hr v (transGen_swap.mp hv)

/-- Assumes: a rank that increases along every step. The relation is acyclic. -/
theorem acyclic_of_rank {r : α → α → Prop} (rank : α → ℕ) (hrank : ∀ a b, r a b → rank a < rank b) :
    Acyclic r := by
  have hlt : ∀ a b, TransGen r a b → rank a < rank b := by
    intro a b hab
    induction hab with
    | single hstep => exact hrank _ _ hstep
    | tail _ hstep ih => exact ih.trans (hrank _ _ hstep)
  exact fun v hv ↦ lt_irrefl _ (hlt v v hv)

/-- Every nonempty finite set of vertices of an acyclic relation has a vertex that no vertex of the
set precedes. -/
theorem Acyclic.exists_minimal {r : α → α → Prop} (hr : Acyclic r) {vertices : Set α}
    (hfinite : vertices.Finite) (hnonempty : vertices.Nonempty) :
    ∃ v ∈ vertices, ∀ w ∈ vertices, ¬ r w v := by
  have : IsTrans α (TransGen r) := ⟨fun _ _ _ ↦ TransGen.trans⟩
  have : Std.Irrefl (TransGen r) := ⟨hr⟩
  have : IsStrictOrder α (TransGen r) := {}
  have hwf : vertices.WellFoundedOn (TransGen r) := hfinite.wellFoundedOn
  obtain ⟨start, hstart⟩ := hnonempty
  obtain ⟨⟨v, hv⟩, -, hmin⟩ := hwf.has_min Set.univ ⟨⟨start, hstart⟩, trivial⟩
  exact ⟨v, hv, fun w hw hstep ↦ hmin ⟨w, hw⟩ trivial (.single hstep)⟩

/-! ### Topological orders -/

/-- Every vertex of the list comes after its predecessors, those in `taken` counting as earlier. -/
def ReadyOrder (preds : α → List α) : List α → List α → Prop
  | _, [] => True
  | taken, v :: rest => (∀ p ∈ preds v, p ∈ taken) ∧ ReadyOrder preds (taken ++ [v]) rest

/-- More vertices taken before keep an order ready. -/
theorem ReadyOrder.mono {preds : α → List α} {order : List α} :
    ∀ {taken more : List α}, ReadyOrder preds taken order → taken ⊆ more →
      ReadyOrder preds more order := by
  induction order with
  | nil => intro _ _ _ _; trivial
  | cons v rest ih =>
    intro taken more horder hsub
    refine ⟨fun p hp ↦ hsub (horder.1 p hp), ih horder.2 fun w hw ↦ ?_⟩
    simp only [List.mem_append] at hw ⊢
    exact hw.imp_left fun hmem ↦ hsub hmem

/-- An order followed by one that is ready after it is ready. -/
theorem ReadyOrder.append {preds : α → List α} {first second : List α} :
    ∀ {taken : List α}, ReadyOrder preds taken first → ReadyOrder preds (taken ++ first) second →
      ReadyOrder preds taken (first ++ second) := by
  induction first with
  | nil => intro taken _ hsecond; simpa using hsecond
  | cons v rest ih =>
    intro taken hfirst hsecond
    exact ⟨hfirst.1, ih hfirst.2 (by simpa using hsecond)⟩

/-- Vertices whose predecessors were all taken before are ready in any order. -/
theorem readyOrder_of_forall {preds : α → List α} {taken order : List α}
    (hready : ∀ v ∈ order, ∀ p ∈ preds v, p ∈ taken) : ReadyOrder preds taken order := by
  induction order with
  | nil => trivial
  | cons v rest ih =>
    have hrest : ReadyOrder preds taken rest := ih fun w hw ↦ hready w (List.mem_cons_of_mem v hw)
    exact ⟨hready v List.mem_cons_self, hrest.mono (List.subset_append_left _ _)⟩

variable [DecidableEq α]

/-- In a ready order every predecessor that was not taken before stands before its vertex. -/
theorem ReadyOrder.idxOf_lt {preds : α → List α} {order : List α} :
    ∀ {taken : List α}, ReadyOrder preds taken order → ∀ {v p : α}, v ∈ order → p ∈ preds v →
      p ∈ taken ∨ order.idxOf p < order.idxOf v := by
  induction order with
  | nil => intro _ _ v p hv; simp at hv
  | cons w rest ih =>
    intro taken horder v p hv hp
    by_cases hvw : v = w
    · exact Or.inl (horder.1 p (hvw ▸ hp))
    · have hrest : v ∈ rest := (List.mem_cons.mp hv).resolve_left hvw
      rw [List.idxOf_cons_ne rest (Ne.symm hvw)]
      by_cases hpw : p = w
      · rw [hpw, List.idxOf_cons_self]
        exact Or.inr (Nat.succ_pos _)
      · rw [List.idxOf_cons_ne rest (Ne.symm hpw)]
        rcases ih horder.2 hrest hp with hmem | hlt
        · exact Or.inl ((List.mem_append.mp hmem).resolve_right (by simpa using hpw))
        · exact Or.inr (Nat.succ_lt_succ hlt)

/-- The rounds of a topological sort: each takes every vertex left whose predecessors were all taken
before. `none` when a round finds nothing to take. -/
def rounds (preds : α → List α) : ℕ → List α → List α → Option (List α)
  | _, _, [] => some []
  | 0, _, _ :: _ => none
  | fuel + 1, taken, v :: rest =>
    let ready := (v :: rest).filter fun w ↦ (preds w).all (· ∈ taken)
    let blocked := (v :: rest).filter fun w ↦ !(preds w).all (· ∈ taken)
    if ready.isEmpty then none else (rounds preds fuel (taken ++ ready) blocked).map (ready ++ ·)

/-- The vertices in topological order, `none` when the predecessors form a cycle. -/
def staticOrder (preds : α → List α) (vertices : List α) : Option (List α) :=
  rounds preds vertices.length [] vertices

/-- An order the rounds find lists the vertices left, each after its predecessors. -/
theorem rounds_eq_some {preds : α → List α} :
    ∀ {fuel : ℕ} {taken left order : List α}, rounds preds fuel taken left = some order →
      order.Perm left ∧ ReadyOrder preds taken order := by
  intro fuel
  induction fuel with
  | zero =>
    intro taken left order hrounds
    cases left with
    | nil => simp only [rounds, Option.some.injEq] at hrounds; exact hrounds ▸ ⟨.nil, trivial⟩
    | cons v rest => simp [rounds] at hrounds
  | succ fuel ih =>
    intro taken left order hrounds
    cases left with
    | nil => simp only [rounds, Option.some.injEq] at hrounds; exact hrounds ▸ ⟨.nil, trivial⟩
    | cons v rest =>
      simp only [rounds] at hrounds
      split_ifs at hrounds with hempty
      obtain ⟨tail, htail, rfl⟩ := Option.map_eq_some_iff.mp hrounds
      obtain ⟨hperm, horder⟩ := ih htail
      refine ⟨(hperm.append_left _).trans (List.filter_append_perm _ _), ?_⟩
      refine (readyOrder_of_forall fun w hw p hp ↦ ?_).append horder
      have hall := (List.mem_filter.mp hw).2
      simpa using List.all_eq_true.mp hall p hp

/-- Assumes: an acyclic graph, enough fuel, and every predecessor of a vertex left is taken or left.
The rounds find an order: the vertices left have one that no vertex left precedes, so no round is
empty. -/
theorem rounds_isSome {preds : α → List α} (hacyclic : Acyclic fun p v ↦ p ∈ preds v) :
    ∀ {fuel : ℕ} {taken left : List α}, left.length ≤ fuel →
      (∀ v ∈ left, ∀ p ∈ preds v, p ∈ taken ∨ p ∈ left) → (rounds preds fuel taken left).isSome := by
  intro fuel
  induction fuel with
  | zero =>
    intro taken left hlength _
    rw [List.length_eq_zero_iff.mp (Nat.le_zero.mp hlength)]
    rfl
  | succ fuel ih =>
    intro taken left hlength hcover
    cases left with
    | nil => rfl
    | cons v rest =>
      obtain ⟨w, hw, hmin⟩ := hacyclic.exists_minimal (List.finite_toSet (v :: rest))
        ⟨v, List.mem_cons_self⟩
      have hready : (preds w).all (· ∈ taken) = true :=
        List.all_eq_true.mpr fun p hp ↦
          decide_eq_true ((hcover w hw p hp).resolve_right fun hleft ↦ hmin p hleft hp)
      have hmem : w ∈ (v :: rest).filter fun u ↦ (preds u).all (· ∈ taken) :=
        List.mem_filter.mpr ⟨hw, hready⟩
      have hnonempty : ¬ ((v :: rest).filter fun u ↦ (preds u).all (· ∈ taken)).isEmpty = true := by
        rw [List.isEmpty_iff]
        exact List.ne_nil_of_mem hmem
      simp only [rounds]
      rw [if_neg hnonempty, Option.isSome_map]
      refine ih ?_ fun u hu p hp ↦ ?_
      · have hlt : ((v :: rest).filter fun u ↦ !(preds u).all (· ∈ taken)).length <
            (v :: rest).length :=
          List.length_filter_lt_length_iff_exists.mpr ⟨w, hw, by simpa using hready⟩
        omega
      · rcases hcover u (List.mem_filter.mp hu).1 p hp with htaken | hleft
        · exact Or.inl (List.mem_append_left _ htaken)
        · by_cases hall : (preds p).all (· ∈ taken) = true
          · exact Or.inl (List.mem_append_right _ (List.mem_filter.mpr ⟨hleft, hall⟩))
          · exact Or.inr (List.mem_filter.mpr ⟨hleft, by simpa using hall⟩)

/-- A topological order lists every vertex once, after its predecessors. -/
theorem staticOrder_eq_some {preds : α → List α} {vertices order : List α}
    (horder : staticOrder preds vertices = some order) :
    order.Perm vertices ∧ ReadyOrder preds [] order :=
  rounds_eq_some horder

/-- Assumes: every predecessor relation joins vertices of the list. A topological order exists
exactly when the graph is acyclic. -/
theorem staticOrder_isSome_iff {preds : α → List α} {vertices : List α}
    (hclosed : ∀ v, ∀ p ∈ preds v, v ∈ vertices ∧ p ∈ vertices) :
    (staticOrder preds vertices).isSome ↔ Acyclic fun p v ↦ p ∈ preds v := by
  constructor
  · intro hsome
    obtain ⟨order, horder⟩ := Option.isSome_iff_exists.mp hsome
    obtain ⟨hperm, hready⟩ := staticOrder_eq_some horder
    refine acyclic_of_rank order.idxOf fun p v hp ↦ ?_
    have hv : v ∈ order := hperm.mem_iff.mpr (hclosed v p hp).1
    exact (hready.idxOf_lt hv hp).resolve_left List.not_mem_nil
  · intro hacyclic
    exact rounds_isSome hacyclic le_rfl fun v _ p hp ↦ Or.inr (hclosed v p hp).2

/-! ### Tables filled along an order -/

section Tables

variable {β : Type*}

/-- Filling a table along a list leaves the entries of other vertices alone. -/
theorem foldl_update_of_notMem (entry : (α → β) → α → β) {order : List α} :
    ∀ {table : α → β} {v : α}, v ∉ order →
      order.foldl (fun table w ↦ Function.update table w (entry table w)) table v = table v := by
  induction order with
  | nil => intro _ _ _; rfl
  | cons w rest ih =>
    intro table v hv
    rw [List.foldl_cons, ih fun hmem ↦ hv (List.mem_cons_of_mem w hmem),
      Function.update_of_ne (ne_of_mem_of_not_mem List.mem_cons_self hv).symm]

/-- Assumes: an order without repetitions, ready after `taken` and disjoint from it, and an entry
that reads the table at predecessors only. The finished table satisfies the equation of every
vertex of the order. -/
theorem foldl_update_eq {preds : α → List α} {entry : (α → β) → α → β}
    (hentry : ∀ (first second : α → β) v, (∀ p ∈ preds v, first p = second p) →
      entry first v = entry second v) {order : List α} :
    ∀ {taken : List α} {table : α → β}, order.Nodup → (∀ v ∈ order, v ∉ taken) →
      ReadyOrder preds taken order → ∀ v ∈ order,
        order.foldl (fun table w ↦ Function.update table w (entry table w)) table v =
          entry (order.foldl (fun table w ↦ Function.update table w (entry table w)) table) v := by
  induction order with
  | nil => intro _ _ _ _ _ v hv; simp at hv
  | cons w rest ih =>
    intro taken table hnodup hdisjoint hready v hv
    obtain ⟨hw, hrest⟩ := List.nodup_cons.mp hnodup
    rcases List.mem_cons.mp hv with rfl | hv
    · -- the entry of the first vertex reads predecessors that the rest of the order never writes
      rw [List.foldl_cons, foldl_update_of_notMem entry hw, Function.update_self]
      refine hentry _ _ _ fun p hp ↦ ?_
      have hp' : p ∈ taken := hready.1 p hp
      have hne : p ≠ v := fun heq ↦ hdisjoint v List.mem_cons_self (heq ▸ hp')
      have hout : p ∉ rest := fun hmem ↦ hdisjoint p (List.mem_cons_of_mem _ hmem) hp'
      rw [foldl_update_of_notMem entry hout, Function.update_of_ne hne]
    · rw [List.foldl_cons]
      refine ih hrest (fun u hu hmem ↦ ?_) hready.2 v hv
      rcases List.mem_append.mp hmem with htaken | hself
      · exact hdisjoint u (List.mem_cons_of_mem w hu) htaken
      · exact hw (List.mem_singleton.mp hself ▸ hu)

end Tables

/-! ### Longest walks and predecessors through chains -/

omit [DecidableEq α]

/-- A walk of `n` steps ends at a vertex. -/
inductive Walk (r : α → α → Prop) : ℕ → α → Prop
  | nil (v : α) : Walk r 0 v
  | cons {n : ℕ} {p v : α} : Walk r n p → r p v → Walk r (n + 1) v

/-- The largest of the numbers, `0` when there is none. -/
def maxOf (numbers : List ℕ) : ℕ := numbers.foldr max 0

theorem le_maxOf {numbers : List ℕ} {n : ℕ} (hn : n ∈ numbers) : n ≤ maxOf numbers := by
  induction numbers with
  | nil => simp at hn
  | cons m rest ih =>
    rcases List.mem_cons.mp hn with rfl | hn
    · exact le_max_left _ _
    · exact (ih hn).trans (le_max_right _ _)

theorem maxOf_mem_or_eq_zero (numbers : List ℕ) : maxOf numbers ∈ numbers ∨ maxOf numbers = 0 := by
  induction numbers with
  | nil => exact Or.inr rfl
  | cons m rest ih =>
    rcases max_choice m (maxOf rest) with hmax | hmax
    · exact Or.inl (by simp only [maxOf, List.foldr_cons] at hmax ⊢; rw [hmax]; simp)
    · simp only [maxOf, List.foldr_cons] at hmax ⊢ ih
      rw [hmax]
      exact ih.imp_left (List.mem_cons_of_mem m)

/-- Assumes: the length of the longest walk ending at each predecessor of a vertex. The longest walk
ending at the vertex is one step longer than the longest of them, and has no step when there is no
predecessor. -/
theorem isGreatest_walk (preds : α → List α) (v : α) (depth : α → ℕ)
    (hdepth : ∀ p ∈ preds v, IsGreatest {n | Walk (fun p v ↦ p ∈ preds v) n p} (depth p)) :
    IsGreatest {n | Walk (fun p v ↦ p ∈ preds v) n v}
      (maxOf ((preds v).map fun p ↦ depth p + 1)) := by
  constructor
  · rcases maxOf_mem_or_eq_zero ((preds v).map fun p ↦ depth p + 1) with hmem | hzero
    · obtain ⟨p, hp, hmax⟩ := List.mem_map.mp hmem
      rw [← hmax]
      exact Walk.cons (hdepth p hp).1 hp
    · rw [hzero]
      exact Walk.nil v
  · rintro n hwalk
    cases hwalk with
    | nil => exact Nat.zero_le _
    | @cons n p _ hwalk hp =>
      have hlast : depth p + 1 ∈ (preds v).map fun p ↦ depth p + 1 :=
        List.mem_map.mpr ⟨p, hp, rfl⟩
      exact (Nat.succ_le_succ ((hdepth p hp).2 hwalk)).trans (le_maxOf hlast)

/-- What precedes a vertex through a chain is one of its predecessors or precedes one of them. -/
theorem transGen_iff_of_pred {r : α → α → Prop} {a v : α} :
    TransGen r a v ↔ ∃ p, r p v ∧ (a = p ∨ TransGen r a p) := by
  constructor
  · intro hav
    cases hav with
    | single hstep => exact ⟨a, hstep, Or.inl rfl⟩
    | tail hap hstep => exact ⟨_, hstep, Or.inr hap⟩
  · rintro ⟨p, hstep, rfl | hap⟩
    · exact .single hstep
    · exact hap.tail hstep

end Holbuild.Library
