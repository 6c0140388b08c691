import Holbuild.RemoteExec.Formats
import Mathlib.Data.Set.Card

/-!
# Priorities in a batch's dependency graph

`dag_priorities` of `coordinator.py`. Claims take the action with the longest chain of dependents
first, then the one with the most dependents. `dagPriorities` computes both for every action in one
pass over a topological order in which dependents come first, the dependents of an action being a
bitset of positions in the list of keys.

`IsPriority` says what the two numbers mean: the length of the longest walk of dependents above the
action, and the number of distinct actions that depend on it, directly or through others.
`dagPriorities_eq_ok` shows that on acyclic edges the pass returns exactly these numbers, and
`dagPriorities_eq_cycleError_iff` that it raises `CycleError` exactly on edges with a cycle.
-/

set_option autoImplicit false
set_option relaxedAutoImplicit false

namespace Holbuild.RemoteExec

open Relation Library

/-! ### The computation -/

/-- Where an action stands in its batch's graph. -/
structure Priority where
  criticalDepth : ℕ
  descendantCount : ℕ
deriving DecidableEq

/-- What `dag_priorities` raises. -/
inductive DagError
  | keyError (key : String)
  | cycleError
deriving DecidableEq

/-- The actions with an edge to an action. -/
def childrenOf (edges : List (String × String)) (key : String) : List String :=
  ((edges.filter (·.2 = key)).map (·.1)).dedup

/-- The bit of an action in a bitset of descendants. -/
def bit (keys : List String) (key : String) : ℕ := 1 <<< keys.idxOf key

/-- `int.bit_count`. -/
def bitCount (n : ℕ) : ℕ := (List.range (n.log2 + 1)).countP n.testBit

/-- The depth and the descendants of an action, from those of its children. -/
def visit (keys : List String) (edges : List (String × String)) (table : String → ℕ × ℕ)
    (key : String) : ℕ × ℕ :=
  (maxOf ((childrenOf edges key).map fun c ↦ (table c).1 + 1),
    (childrenOf edges key).foldl (fun bits c ↦ bits ||| (bit keys c ||| (table c).2)) 0)

/-- The depths and descendants of the actions of an order. -/
def visitAll (keys : List String) (edges : List (String × String)) (order : List String) :
    String → ℕ × ℕ :=
  order.foldl (fun table key ↦ Function.update table key (visit keys edges table key))
    fun _ ↦ (0, 0)

/-- `dag_priorities`: the priority of each of the keys in the graph of `(input_key, parent)`
edges. -/
def dagPriorities (keys : List String) (edges : List (String × String)) :
    Except DagError (List (String × Priority)) :=
  match edges.find? (·.2 ∉ keys) with
  | some (_, parent) => .error (.keyError parent)
  | none =>
    match staticOrder (childrenOf edges) (keys ++ edges.map (·.1)).dedup with
    | none => .error .cycleError
    | some order =>
      match order.find? (· ∉ keys) with
      | some key => .error (.keyError key)
      | none =>
        .ok (keys.map fun key ↦
          (key, ⟨(visitAll keys edges order key).1, bitCount (visitAll keys edges order key).2⟩))

/-! ### What the numbers mean -/

/-- A priority counts the longest walk of dependents above an action and the actions that depend on
it, directly or through others. -/
structure IsPriority (edges : List (String × String)) (key : String) (priority : Priority) :
    Prop where
  isGreatest : IsGreatest {n | Walk (DependsOn edges) n key} priority.criticalDepth
  count : priority.descendantCount = {c | TransGen (DependsOn edges) c key}.ncard

/-- An action has one priority. -/
theorem IsPriority.unique {edges : List (String × String)} {key : String} {first second : Priority}
    (hfirst : IsPriority edges key first) (hsecond : IsPriority edges key second) :
    first = second := by
  obtain ⟨depth, count⟩ := first
  obtain ⟨depth', count'⟩ := second
  have hdepth : depth = depth' := hfirst.isGreatest.unique hsecond.isGreatest
  have hcount : count = count' := hfirst.count.trans hsecond.count.symm
  rw [hdepth, hcount]

/-- Priorities depend on the edges as a set only. -/
theorem IsPriority.congr {edges edges' : List (String × String)} {key : String}
    {priority : Priority} (hedges : ∀ e, e ∈ edges ↔ e ∈ edges')
    (hpriority : IsPriority edges key priority) : IsPriority edges' key priority := by
  have hrelation : DependsOn edges = DependsOn edges' := by
    funext child parent
    exact propext (hedges (child, parent))
  exact ⟨hrelation ▸ hpriority.isGreatest, hrelation ▸ hpriority.count⟩

@[simp] theorem mem_childrenOf {edges : List (String × String)} {key child : String} :
    child ∈ childrenOf edges key ↔ (child, key) ∈ edges := by
  simp [childrenOf]

/-- The predecessors the order is computed from are the dependents. -/
theorem mem_childrenOf_eq (edges : List (String × String)) :
    (fun child key ↦ child ∈ childrenOf edges key) = DependsOn edges := by
  funext child key
  exact propext mem_childrenOf

/-! ### Bitsets -/

/-- The bit of an action is set at its position only. -/
theorem testBit_bit (keys : List String) (key : String) (i : ℕ) :
    (bit keys key).testBit i ↔ keys.idxOf key = i := by
  rw [bit, Nat.one_shiftLeft, Nat.testBit_two_pow]
  simp

/-- A bit is set in the union of bitsets exactly when it is set in one of them. -/
theorem testBit_foldl_or (bits : String → ℕ) (i : ℕ) (children : List String) :
    ∀ start : ℕ, (children.foldl (fun n c ↦ n ||| bits c) start).testBit i ↔
      start.testBit i ∨ ∃ c ∈ children, (bits c).testBit i := by
  induction children with
  | nil => intro start; simp
  | cons child rest ih =>
    intro start
    rw [List.foldl_cons, ih, Nat.testBit_or]
    simp only [Bool.or_eq_true, List.mem_cons, exists_eq_or_imp, or_assoc]

/-- The number of set bits is the size of the set they represent. -/
theorem bitCount_eq_ncard (n : ℕ) : bitCount n = {i | n.testBit i}.ncard := by
  have hset : {i | n.testBit i} = ((List.range (n.log2 + 1)).filter n.testBit).toFinset := by
    ext i
    simp only [Set.mem_ofPred_eq, List.coe_toFinset, List.mem_filter, List.mem_range]
    refine ⟨fun hbit ↦ ⟨?_, hbit⟩, fun hmem ↦ hmem.2⟩
    have hpow : 2 ^ i ≤ n := Nat.ge_two_pow_of_testBit hbit
    have hne : n ≠ 0 := (Nat.two_pow_pos i).trans_le hpow |>.ne'
    exact Nat.lt_succ_of_le ((Nat.le_log2 hne).mpr hpow)
  rw [hset, Set.ncard_coe_finset, List.toFinset_card_of_nodup (List.nodup_range.filter _), bitCount,
    List.countP_eq_length_filter]

/-! ### The pass computes the priorities -/

section Pass

variable {keys : List String} {edges : List (String × String)}

/-- The pass reads the table at children only. -/
theorem visit_congr (keys : List String) (edges : List (String × String))
    (first second : String → ℕ × ℕ) (key : String)
    (heq : ∀ c ∈ childrenOf edges key, first c = second c) :
    visit keys edges first key = visit keys edges second key := by
  unfold visit
  rw [List.map_congr_left fun c hc ↦ by rw [heq c hc],
    List.foldl_ext _ _ _ fun n c hc ↦ by rw [heq c hc]]

/-- Assumes: an order without repetitions in which every action comes after its children. The
table of the pass satisfies the equation of every action. -/
theorem visitAll_eq {order : List String} (hnodup : order.Nodup)
    (hready : ReadyOrder (childrenOf edges) [] order) {key : String} (hkey : key ∈ order) :
    visitAll keys edges order key = visit keys edges (visitAll keys edges order) key :=
  foldl_update_eq (visit_congr keys edges) hnodup (by simp) hready key hkey

/-- Assumes: an order without repetitions in which every action comes after its children, listing
the children of its actions. The table holds the longest walk above every action, and the positions
of its dependents. The induction is on the place of the action in the order. -/
theorem visitAll_spec (keys : List String) {order : List String} (hnodup : order.Nodup)
    (hready : ReadyOrder (childrenOf edges) [] order)
    (hclosed : ∀ key, ∀ c ∈ childrenOf edges key, c ∈ order) (key : String) (hkey : key ∈ order) :
    IsGreatest {n | Walk (DependsOn edges) n key} (visitAll keys edges order key).1 ∧
      ∀ i, (visitAll keys edges order key).2.testBit i ↔
        ∃ c, TransGen (DependsOn edges) c key ∧ keys.idxOf c = i := by
  induction hplace : order.idxOf key using Nat.strong_induction_on generalizing key with
  | _ place ih =>
    have hchild : ∀ c ∈ childrenOf edges key,
        IsGreatest {n | Walk (DependsOn edges) n c} (visitAll keys edges order c).1 ∧
          ∀ i, (visitAll keys edges order c).2.testBit i ↔
            ∃ d, TransGen (DependsOn edges) d c ∧ keys.idxOf d = i := by
      intro c hc
      have hlt := (hready.idxOf_lt hkey hc).resolve_left List.not_mem_nil
      exact ih _ (hplace ▸ hlt) c (hclosed key c hc) rfl
    rw [visitAll_eq hnodup hready hkey]
    constructor
    · have hgreatest := isGreatest_walk (childrenOf edges) key
        fun c ↦ (visitAll keys edges order c).1
      rw [mem_childrenOf_eq] at hgreatest
      exact hgreatest fun c hc ↦ (hchild c hc).1
    · intro i
      rw [visit, testBit_foldl_or fun c ↦ bit keys c ||| (visitAll keys edges order c).2]
      simp only [Nat.zero_testBit, Bool.false_eq_true, false_or, Nat.testBit_or, Bool.or_eq_true,
        testBit_bit]
      constructor
      · rintro ⟨c, hc, hidx | hbits⟩
        · exact ⟨c, .single (mem_childrenOf.mp hc), hidx⟩
        · obtain ⟨d, hd, hidx⟩ := ((hchild c hc).2 i).mp hbits
          exact ⟨d, hd.tail (mem_childrenOf.mp hc), hidx⟩
      · rintro ⟨d, hd, hidx⟩
        obtain ⟨c, hc, rfl | hdc⟩ := transGen_iff_of_pred.mp hd
        · exact ⟨d, mem_childrenOf.mpr hc, Or.inl hidx⟩
        · exact ⟨c, mem_childrenOf.mpr hc,
            Or.inr (((hchild c (mem_childrenOf.mpr hc)).2 i).mpr ⟨d, hdc, hidx⟩)⟩

/-- Edges over the keys join vertices of the graph that is sorted. -/
theorem childrenOf_closed (hedges : ∀ e ∈ edges, e.1 ∈ keys ∧ e.2 ∈ keys) (key : String)
    (child : String) (hchild : child ∈ childrenOf edges key) :
    key ∈ (keys ++ edges.map (·.1)).dedup ∧ child ∈ (keys ++ edges.map (·.1)).dedup := by
  have hedge := hedges _ (mem_childrenOf.mp hchild)
  exact ⟨List.mem_dedup.mpr (List.mem_append_left _ hedge.2),
    List.mem_dedup.mpr (List.mem_append_left _ hedge.1)⟩

/-- Assumes: acyclic edges over the keys. `dag_priorities` returns the priority of
every key. -/
theorem dagPriorities_eq_ok (hedges : ∀ e ∈ edges, e.1 ∈ keys ∧ e.2 ∈ keys)
    (hacyclic : Acyclic (DependsOn edges)) :
    ∃ priority : String → Priority,
      dagPriorities keys edges = .ok (keys.map fun key ↦ (key, priority key)) ∧
        ∀ key ∈ keys, IsPriority edges key (priority key) := by
  have hsome := (staticOrder_isSome_iff (childrenOf_closed hedges)).mpr
    (mem_childrenOf_eq edges ▸ hacyclic)
  obtain ⟨order, horder⟩ := Option.isSome_iff_exists.mp hsome
  obtain ⟨hperm, hready⟩ := staticOrder_eq_some horder
  have hnodup : order.Nodup := hperm.nodup_iff.mpr (List.nodup_dedup _)
  have hmem : ∀ key, key ∈ order ↔ key ∈ keys := by
    intro key
    rw [hperm.mem_iff, List.mem_dedup, List.mem_append]
    refine ⟨fun h ↦ h.elim id fun hchild ↦ ?_, Or.inl⟩
    obtain ⟨e, he, rfl⟩ := List.mem_map.mp hchild
    exact (hedges e he).1
  have hparents : edges.find? (·.2 ∉ keys) = none :=
    List.find?_eq_none.mpr fun e he ↦ by simpa using (hedges e he).2
  have hlisted : order.find? (· ∉ keys) = none :=
    List.find?_eq_none.mpr fun key hkey ↦ by simpa using (hmem key).mp hkey
  have hspec := fun key hkey ↦ visitAll_spec keys hnodup hready
    (fun key c hc ↦ (hmem c).mpr (hedges _ (mem_childrenOf.mp hc)).1) key ((hmem key).mpr hkey)
  refine ⟨fun key ↦
    ⟨(visitAll keys edges order key).1, bitCount (visitAll keys edges order key).2⟩, ?_, ?_⟩
  · simp only [dagPriorities, hparents, horder, hlisted]
  · intro key hkey
    refine ⟨(hspec key hkey).1, ?_⟩
    have himage : {i | (visitAll keys edges order key).2.testBit i} =
        keys.idxOf '' {c | TransGen (DependsOn edges) c key} := by
      ext i
      exact (hspec key hkey).2 i
    have hsub : ∀ c, TransGen (DependsOn edges) c key → c ∈ keys := by
      intro c hc
      obtain ⟨d, hstep, -⟩ := TransGen.head'_iff.mp hc
      exact (hedges _ hstep).1
    change bitCount (visitAll keys edges order key).2 = _
    rw [bitCount_eq_ncard, himage]
    exact Set.InjOn.ncard_image fun c hc d _ hidx ↦ (List.idxOf_inj (hsub c hc)).mp hidx

/-- Assumes: edges over the keys. `dag_priorities` raises `CycleError` exactly when the edges have
a cycle. -/
theorem dagPriorities_eq_cycleError_iff
    (hedges : ∀ e ∈ edges, e.1 ∈ keys ∧ e.2 ∈ keys) :
    dagPriorities keys edges = .error .cycleError ↔ ¬ Acyclic (DependsOn edges) := by
  constructor
  · intro herror hacyclic
    obtain ⟨priority, hok, -⟩ := dagPriorities_eq_ok hedges hacyclic
    rw [hok] at herror
    cases herror
  · intro hcyclic
    have hparents : edges.find? (·.2 ∉ keys) = none :=
      List.find?_eq_none.mpr fun e he ↦ by simpa using (hedges e he).2
    have hnone : staticOrder (childrenOf edges) (keys ++ edges.map (·.1)).dedup = none := by
      rw [← Option.not_isSome_iff_eq_none, staticOrder_isSome_iff (childrenOf_closed hedges),
        mem_childrenOf_eq]
      exact hcyclic
    simp only [dagPriorities, hparents, hnone]

/-- Assumes: edges over the keys. What `dag_priorities` returns depends on the edges
as a set only. -/
theorem dagPriorities_congr {edges' : List (String × String)}
    (hedges : ∀ e ∈ edges, e.1 ∈ keys ∧ e.2 ∈ keys) (hsame : ∀ e, e ∈ edges ↔ e ∈ edges') :
    dagPriorities keys edges = dagPriorities keys edges' := by
  have hedges' : ∀ e ∈ edges', e.1 ∈ keys ∧ e.2 ∈ keys := fun e he ↦ hedges e ((hsame e).mpr he)
  by_cases hacyclic : Acyclic (DependsOn edges)
  · have hacyclic' : Acyclic (DependsOn edges') :=
      hacyclic.mono fun child parent h ↦ (hsame (child, parent)).mpr h
    obtain ⟨priority, hok, hspec⟩ := dagPriorities_eq_ok hedges hacyclic
    obtain ⟨priority', hok', hspec'⟩ := dagPriorities_eq_ok hedges' hacyclic'
    rw [hok, hok']
    congr 1
    refine List.map_congr_left fun key hkey ↦ ?_
    rw [((hspec key hkey).congr hsame).unique (hspec' key hkey)]
  · have hcyclic' : ¬ Acyclic (DependsOn edges') := fun hacyclic' ↦
      hacyclic (hacyclic'.mono fun child parent h ↦ (hsame (child, parent)).mp h)
    rw [(dagPriorities_eq_cycleError_iff hedges).mpr hacyclic,
      (dagPriorities_eq_cycleError_iff hedges').mpr hcyclic']

end Pass

end Holbuild.RemoteExec
