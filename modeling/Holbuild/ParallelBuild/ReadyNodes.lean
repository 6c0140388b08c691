import Holbuild.ParallelBuild.Scheduler
import Mathlib.Data.Finset.Card
import Mathlib.Data.List.Nodup

/-!
# Ready nodes

Registration enters every node with its dependencies, and makes ready those that have none
(`readyFor_registerNodes`). A node that succeeds makes ready the nodes whose last unfinished dependency
it was (`ReadyFor.release`). The focus holds the nodes with a failed prefix and all they depend on
(`focusedBelow_markPriorityRoots`), and the next node is taken from it while any of it is left.
-/

set_option autoImplicit false
set_option relaxedAutoImplicit false

namespace Holbuild.ParallelBuild

open Library

variable {b : Setup} {id c d : ℕ}

/-! ### Registration -/

/-- The ready state after some nodes started and some succeeded. -/
structure ReadyFor (b : Setup) (started succeeded : List ℕ) (r : ReadyState) : Prop where
  remaining : ∀ id < b.graph.count, r.remaining id =
    ((b.graph.deps id).filter fun dep ↦ dep ∉ succeeded).length
  mem : ∀ id, id ∈ r.ready ↔ id < b.graph.count ∧ id ∉ started ∧
    ∀ dep ∈ b.graph.deps id, dep ∈ succeeded
  nodup : r.ready.Nodup
  priorityReady : r.priorityReady = (r.ready.countP b.failedPrefix : ℕ)

@[simp] theorem addReady_remaining (r : ReadyState) : (b.addReady r id).remaining = r.remaining := rfl

@[simp] theorem addReady_ready (r : ReadyState) : (b.addReady r id).ready = id :: r.ready := rfl

theorem addReady_priorityReady {r : ReadyState} (h : r.priorityReady = (r.ready.countP b.failedPrefix : ℕ)) :
    (b.addReady r id).priorityReady = ((b.addReady r id).ready.countP b.failedPrefix : ℕ) := by
  show (if b.failedPrefix id then r.priorityReady + 1 else r.priorityReady) = _
  rw [addReady_ready, List.countP_cons, h]
  split <;> simp

/-- Entering a node with each of its dependencies. -/
theorem foldl_enter {deps : List ℕ} : ∀ {table : ℕ → List ℕ}, deps.Nodup →
    deps.foldl (fun table dep ↦ Function.update table dep (id :: table dep)) table d =
      if d ∈ deps then id :: table d else table d := by
  induction deps with
  | nil => simp
  | cons dep rest ih =>
    intro table hnodup
    obtain ⟨hdep, hrest⟩ := List.nodup_cons.mp hnodup
    rw [List.foldl_cons, ih hrest]
    by_cases hd : d = dep
    · subst hd
      rw [if_neg hdep, Function.update_self, if_pos List.mem_cons_self]
    · rw [Function.update_of_ne hd]
      simp [hd]

/-- What registering the nodes below a bound gives. -/
structure RegisteredBelow (b : Setup) (bound : ℕ) (state : ReadyState × (ℕ → List ℕ)) : Prop where
  remaining : ∀ id < bound, state.1.remaining id = (b.graph.deps id).length
  mem : ∀ id, id ∈ state.1.ready ↔ id < bound ∧ b.graph.deps id = []
  nodup : state.1.ready.Nodup
  priorityReady : state.1.priorityReady = (state.1.ready.countP b.failedPrefix : ℕ)
  dependents : ∀ d c, c ∈ state.2 d ↔ c < bound ∧ d ∈ b.graph.deps c
  nodup_dependents : ∀ d, (state.2 d).Nodup

theorem RegisteredBelow.next {bound : ℕ} {state : ReadyState × (ℕ → List ℕ)}
    (h : RegisteredBelow b bound state) :
    RegisteredBelow b (bound + 1) (b.registerNode state bound) := by
  have hcounted : ∀ id < bound + 1, Function.update state.1.remaining bound
      ((b.graph.deps bound).length : ℤ) id = (b.graph.deps id).length := by
    intro id hid
    by_cases heq : id = bound
    · subst heq
      rw [Function.update_self]
    · rw [Function.update_of_ne heq, h.remaining id (by omega)]
  have hentered : ∀ d, (b.registerNode state bound).2 d =
      if d ∈ b.graph.deps bound then bound :: state.2 d else state.2 d :=
    fun d ↦ foldl_enter (b.graph.nodup bound)
  have hready : (b.registerNode state bound).1 = if (b.graph.deps bound).isEmpty then
      b.addReady { state.1 with
        remaining := Function.update state.1.remaining bound ((b.graph.deps bound).length : ℤ) } bound
      else { state.1 with
        remaining := Function.update state.1.remaining bound ((b.graph.deps bound).length : ℤ) } := rfl
  have hnew : bound ∉ state.1.ready := fun hmem ↦ (((h.mem bound).mp hmem).1).false
  have hdependents : ∀ d c, c ∈ (b.registerNode state bound).2 d ↔
      c < bound + 1 ∧ d ∈ b.graph.deps c := by
    intro d c
    rw [hentered]
    split
    · rename_i hd
      rw [List.mem_cons, h.dependents, Nat.lt_succ_iff_lt_or_eq]
      constructor
      · rintro (rfl | ⟨hc, hdep⟩)
        · exact ⟨.inr rfl, hd⟩
        · exact ⟨.inl hc, hdep⟩
      · rintro ⟨hc | rfl, hdep⟩
        · exact .inr ⟨hc, hdep⟩
        · exact .inl rfl
    · rename_i hd
      rw [h.dependents, Nat.lt_succ_iff_lt_or_eq]
      constructor
      · exact fun ⟨hc, hdep⟩ ↦ ⟨.inl hc, hdep⟩
      · rintro ⟨hc | rfl, hdep⟩
        · exact ⟨hc, hdep⟩
        · exact absurd hdep hd
  have hnodup : ∀ d, ((b.registerNode state bound).2 d).Nodup := by
    intro d
    rw [hentered]
    split
    · refine List.nodup_cons.mpr ⟨fun hmem ↦ ?_, h.nodup_dependents d⟩
      exact (((h.dependents d bound).mp hmem).1).false
    · exact h.nodup_dependents d
  by_cases hdeps : b.graph.deps bound = []
  · rw [if_pos (by rw [hdeps]; rfl)] at hready
    constructor
    · rw [hready]
      exact hcounted
    · intro id
      rw [hready, addReady_ready, List.mem_cons, h.mem, Nat.lt_succ_iff_lt_or_eq]
      constructor
      · rintro (rfl | ⟨hid, hnil⟩)
        · exact ⟨.inr rfl, hdeps⟩
        · exact ⟨.inl hid, hnil⟩
      · rintro ⟨hid | rfl, hnil⟩
        · exact .inr ⟨hid, hnil⟩
        · exact .inl rfl
    · rw [hready, addReady_ready]
      exact List.nodup_cons.mpr ⟨hnew, h.nodup⟩
    · rw [hready]
      exact addReady_priorityReady h.priorityReady
    · exact hdependents
    · exact hnodup
  · rw [if_neg (by rwa [List.isEmpty_iff])] at hready
    constructor
    · rw [hready]
      exact hcounted
    · intro id
      rw [hready, h.mem, Nat.lt_succ_iff_lt_or_eq]
      constructor
      · exact fun ⟨hid, hnil⟩ ↦ ⟨.inl hid, hnil⟩
      · rintro ⟨hid | rfl, hnil⟩
        · exact ⟨hid, hnil⟩
        · exact absurd hnil hdeps
    · rw [hready]
      exact h.nodup
    · rw [hready]
      exact h.priorityReady
    · exact hdependents
    · exact hnodup

theorem registeredBelow_registerNodes : RegisteredBelow b b.graph.count b.registerNodes := by
  unfold Setup.registerNodes
  induction b.graph.count with
  | zero =>
    constructor
    · exact fun id hid ↦ absurd hid (Nat.not_lt_zero id)
    · simp
    · exact List.nodup_nil
    · rfl
    · simp
    · exact fun d ↦ List.nodup_nil
  | succ bound ih =>
    rw [List.range_succ, List.foldl_append]
    exact ih.next

theorem mem_dependents : c ∈ b.dependents d ↔ c < b.graph.count ∧ d ∈ b.graph.deps c :=
  registeredBelow_registerNodes.dependents d c

theorem nodup_dependents : (b.dependents d).Nodup :=
  registeredBelow_registerNodes.nodup_dependents d

theorem readyFor_registerNodes : ReadyFor b [] [] b.registerNodes.1 := by
  have h := registeredBelow_registerNodes (b := b)
  constructor
  · intro id hid
    rw [h.remaining id hid]
    simp
  · intro id
    rw [h.mem, List.eq_nil_iff_forall_not_mem]
    simp
  · exact h.nodup
  · exact h.priorityReady

/-! ### Releasing the dependents of a node -/

/-- What releasing nodes, each once, does to the ready state. -/
theorem foldl_releaseDependent {children : List ℕ} : ∀ {r : ReadyState}, children.Nodup →
    (∀ c ∈ children, r.remaining c = 1 → c ∉ r.ready) → r.ready.Nodup →
    r.priorityReady = (r.ready.countP b.failedPrefix : ℕ) →
    let r' := children.foldl b.releaseDependent r
    (∀ c, r'.remaining c = if c ∈ children then r.remaining c - 1 else r.remaining c) ∧
      (∀ c, c ∈ r'.ready ↔ c ∈ r.ready ∨ c ∈ children ∧ r.remaining c = 1) ∧ r'.ready.Nodup ∧
      r'.priorityReady = (r'.ready.countP b.failedPrefix : ℕ) := by
  induction children with
  | nil =>
    intro r _ _ hready hpriority
    exact ⟨by simp, by simp, hready, hpriority⟩
  | cons child rest ih =>
    intro r hnodup hnew hready hpriority
    obtain ⟨hchild, hrest⟩ := List.nodup_cons.mp hnodup
    -- the state after the first release: only the child's count and, at zero, its entry are new
    have hremaining : (b.releaseDependent r child).remaining =
        Function.update r.remaining child (r.remaining child - 1) := by
      unfold Setup.releaseDependent
      dsimp only
      split <;> rfl
    have hready' : (b.releaseDependent r child).ready =
        if r.remaining child = 1 then child :: r.ready else r.ready := by
      unfold Setup.releaseDependent
      dsimp only
      by_cases hone : r.remaining child = 1
      · rw [if_pos (by omega), if_pos hone]
        rfl
      · rw [if_neg (by omega), if_neg hone]
    have hother : ∀ c ∈ rest, (b.releaseDependent r child).remaining c = r.remaining c := by
      intro c hc
      rw [hremaining, Function.update_of_ne]
      rintro rfl
      exact hchild hc
    have hmem : ∀ c, c ∈ (b.releaseDependent r child).ready ↔
        c ∈ r.ready ∨ c = child ∧ r.remaining c = 1 := by
      intro c
      rw [hready']
      split
      · rename_i hone
        rw [List.mem_cons]
        constructor
        · rintro (rfl | hc)
          · exact .inr ⟨rfl, hone⟩
          · exact .inl hc
        · rintro (hc | ⟨rfl, -⟩)
          · exact .inr hc
          · exact .inl rfl
      · rename_i hone
        constructor
        · exact .inl
        · rintro (hc | ⟨rfl, hc⟩)
          · exact hc
          · exact absurd hc hone
    obtain ⟨hih1, hih2, hih3, hih4⟩ := ih (r := b.releaseDependent r child) hrest
      (by
        intro c hc hone
        rw [hother c hc] at hone
        rw [hmem]
        rintro (hold | ⟨rfl, -⟩)
        · exact hnew c (List.mem_cons_of_mem _ hc) hone hold
        · exact hchild hc)
      (by
        rw [hready']
        split
        · rename_i hone
          exact List.nodup_cons.mpr ⟨hnew child List.mem_cons_self hone, hready⟩
        · exact hready)
      (by
        unfold Setup.releaseDependent
        dsimp only
        split
        · exact addReady_priorityReady hpriority
        · exact hpriority)
    refine ⟨fun c ↦ ?_, fun c ↦ ?_, hih3, hih4⟩
    · rw [List.foldl_cons, hih1, hremaining]
      by_cases hc : c = child
      · subst hc
        rw [if_neg hchild, if_pos List.mem_cons_self, Function.update_self]
      · rw [Function.update_of_ne hc]
        simp [hc]
    · rw [List.foldl_cons, hih2, hmem, List.mem_cons]
      constructor
      · rintro ((hold | ⟨rfl, hone⟩) | ⟨hc, hone⟩)
        · exact .inl hold
        · exact .inr ⟨.inl rfl, hone⟩
        · exact .inr ⟨.inr hc, (hother c hc) ▸ hone⟩
      · rintro (hold | ⟨rfl | hc, hone⟩)
        · exact .inl (.inl hold)
        · exact .inl (.inr ⟨rfl, hone⟩)
        · exact .inr ⟨hc, (hother c hc).symm ▸ hone⟩

theorem filter_notMem_eq_nil_iff {deps succeeded : List ℕ} :
    (deps.filter fun dep ↦ dep ∉ succeeded) = [] ↔ ∀ dep ∈ deps, dep ∈ succeeded := by
  simp [List.filter_eq_nil_iff]

/-- A node that succeeds is one unfinished dependency less of each node that depends on it. -/
theorem length_filter_succeeded {deps succeeded : List ℕ} (hnodup : deps.Nodup) (hid : id ∉ succeeded) :
    ((deps.filter fun dep ↦ dep ∉ succeeded ++ [id]).length : ℤ) =
      if id ∈ deps then ((deps.filter fun dep ↦ dep ∉ succeeded).length : ℤ) - 1
      else (deps.filter fun dep ↦ dep ∉ succeeded).length := by
  have hfilter : (deps.filter fun dep ↦ dep ∉ succeeded ++ [id]) =
      (deps.filter fun dep ↦ dep ∉ succeeded).erase id := by
    rw [(hnodup.filter _).erase_eq_filter, List.filter_filter]
    refine List.filter_congr fun dep _ ↦ ?_
    by_cases hdep : dep = id <;> simp [hdep]
  have hmem : id ∈ (deps.filter fun dep ↦ dep ∉ succeeded) ↔ id ∈ deps := by
    simp [hid]
  rw [hfilter]
  by_cases hdeps : id ∈ deps
  · have hlength := List.length_erase_of_mem (hmem.mpr hdeps)
    have hpos := List.length_pos_of_mem (hmem.mpr hdeps)
    rw [if_pos hdeps]
    omega
  · rw [if_neg hdeps, List.erase_of_not_mem fun h ↦ hdeps (hmem.mp h)]

/-- Releasing the dependents of a node that succeeded. -/
theorem ReadyFor.release {started succeeded : List ℕ} {r : ReadyState}
    (h : ReadyFor b started succeeded r) (hid : id ∉ succeeded)
    (hdeps : ∀ c ∈ started, ∀ dep ∈ b.graph.deps c, dep ∈ succeeded) :
    ReadyFor b started (succeeded ++ [id]) ((b.dependents id).foldl b.releaseDependent r) := by
  have hone : ∀ c, c ∈ b.dependents id → r.remaining c = 1 →
      ∀ dep ∈ b.graph.deps c, dep ∈ succeeded ++ [id] := by
    intro c hc hone dep hdep
    obtain ⟨hlt, hmem⟩ := mem_dependents.mp hc
    have hlength := length_filter_succeeded (b.graph.nodup c) hid
    rw [if_pos hmem, ← h.remaining c hlt, hone] at hlength
    have hnil := List.eq_nil_of_length_eq_zero (Int.ofNat_eq_zero.mp hlength)
    exact filter_notMem_eq_nil_iff.mp hnil dep hdep
  obtain ⟨hremaining, hmem, hnodup, hpriority⟩ := foldl_releaseDependent (b := b) (r := r)
    (nodup_dependents (d := id))
    (fun c hc _ hready ↦ hid (((h.mem c).mp hready).2.2 id (mem_dependents.mp hc).2))
    h.nodup h.priorityReady
  refine ⟨fun c hc ↦ ?_, fun c ↦ ?_, hnodup, hpriority⟩
  · rw [hremaining, length_filter_succeeded (b.graph.nodup c) hid, h.remaining c hc]
    simp only [mem_dependents, hc, true_and]
  · rw [hmem]
    constructor
    · rintro (hold | ⟨hc, hc1⟩)
      · obtain ⟨hlt, hstarted, hall⟩ := (h.mem c).mp hold
        exact ⟨hlt, hstarted, fun dep hdep ↦ List.mem_append_left _ (hall dep hdep)⟩
      · obtain ⟨hlt, hdep⟩ := mem_dependents.mp hc
        exact ⟨hlt, fun hstarted ↦ hid (hdeps c hstarted id hdep), hone c hc hc1⟩
    · rintro ⟨hlt, hstarted, hall⟩
      by_cases hdep : id ∈ b.graph.deps c
      · refine .inr ⟨mem_dependents.mpr ⟨hlt, hdep⟩, ?_⟩
        have hlength := length_filter_succeeded (b.graph.nodup c) hid
        rw [if_pos hdep, filter_notMem_eq_nil_iff.mpr hall, ← h.remaining c hlt] at hlength
        simp only [List.length_nil] at hlength
        omega
      · refine .inl ((h.mem c).mpr ⟨hlt, hstarted, fun dep hdep' ↦ ?_⟩)
        rcases List.mem_append.mp (hall dep hdep') with hold | hnew
        · exact hold
        · exact absurd (List.mem_singleton.mp hnew ▸ hdep') hdep

/-! ### The focus -/

/-- A focus that marks more nodes, each new one with its dependencies, and counts them. -/
structure FocusGrows (b : Setup) (focus focus' : Focus) : Prop where
  subset : focus.marked ⊆ focus'.marked
  closed : ∀ x ∈ focus'.marked, x ∉ focus.marked → x < b.graph.count ∧
    ∀ dep ∈ b.graph.deps x, dep ∈ focus'.marked
  remaining : focus'.remaining - focus'.marked.card = focus.remaining - focus.marked.card

theorem FocusGrows.refl (focus : Focus) : FocusGrows b focus focus :=
  ⟨Finset.Subset.refl _, fun _ hx hnew ↦ absurd hx hnew, rfl⟩

theorem FocusGrows.trans {focus focus' focus'' : Focus} (h : FocusGrows b focus focus')
    (h' : FocusGrows b focus' focus'') : FocusGrows b focus focus'' := by
  refine ⟨h.subset.trans h'.subset, fun x hx hnew ↦ ?_, h'.remaining.trans h.remaining⟩
  by_cases hold : x ∈ focus'.marked
  · obtain ⟨hlt, hdeps⟩ := h.closed x hold hnew
    exact ⟨hlt, fun dep hdep ↦ h'.subset (hdeps dep hdep)⟩
  · exact h'.closed x hx hold

/-- Marking nodes one after another. -/
theorem FocusGrows.foldl {mark : Focus → ℕ → Focus} {ids : List ℕ}
    (hmark : ∀ id ∈ ids, ∀ focus, FocusGrows b focus (mark focus id) ∧ id ∈ (mark focus id).marked) :
    ∀ focus, FocusGrows b focus (ids.foldl mark focus) ∧ ∀ id ∈ ids, id ∈ (ids.foldl mark focus).marked := by
  induction ids with
  | nil => exact fun focus ↦ ⟨.refl focus, by simp⟩
  | cons id rest ih =>
    intro focus
    obtain ⟨hgrows, hid⟩ := hmark id List.mem_cons_self focus
    obtain ⟨hrest, hmem⟩ := ih (fun other hother ↦ hmark other (List.mem_cons_of_mem _ hother))
      (mark focus id)
    refine ⟨hgrows.trans hrest, fun other hother ↦ ?_⟩
    rcases List.mem_cons.mp hother with rfl | hother
    · exact hrest.subset hid
    · exact hmem other hother

/-- Marking a node in enough depth marks it and all it depends on. -/
theorem markPriorityFocus_spec {depth : ℕ} : ∀ {id : ℕ}, id < depth → id < b.graph.count →
    ∀ focus, FocusGrows b focus (b.markPriorityFocus depth focus id) ∧
      id ∈ (b.markPriorityFocus depth focus id).marked := by
  induction depth with
  | zero => exact fun hid ↦ absurd hid (Nat.not_lt_zero _)
  | succ depth ih =>
    intro id hid hlt focus
    rw [Setup.markPriorityFocus]
    split
    · rename_i hmarked
      exact ⟨.refl focus, hmarked⟩
    · rename_i hnew
      obtain ⟨hgrows, hdeps⟩ := @FocusGrows.foldl b (b.markPriorityFocus depth)
        (b.graph.deps id)
        (fun dep hdep focus ↦ by
          have hdep' := b.graph.lt id dep hdep
          exact ih (by omega) (by omega) focus)
        ⟨insert id focus.marked, focus.remaining + 1⟩
      have hid' := hgrows.subset (Finset.mem_insert_self id focus.marked)
      refine ⟨⟨(Finset.subset_insert id _).trans hgrows.subset, fun x hx hxnew ↦ ?_, ?_⟩, hid'⟩
      · by_cases hxid : x = id
        · subst hxid
          exact ⟨hlt, hdeps⟩
        · exact hgrows.closed x hx fun h ↦ (Finset.mem_insert.mp h).elim hxid hxnew
      · have hcard := Finset.card_insert_of_notMem hnew
        have hremaining := hgrows.remaining
        simp only [hcard] at hremaining
        push_cast at hremaining
        omega

/-- What marking the roots below a bound gives. -/
structure FocusedBelow (b : Setup) (bound : ℕ) (state : Bool × Focus) : Prop where
  closed : ∀ x ∈ state.2.marked, x < b.graph.count ∧ ∀ dep ∈ b.graph.deps x, dep ∈ state.2.marked
  remaining : state.2.remaining = state.2.marked.card
  roots : ∀ id < bound, b.failedPrefix id → id ∈ state.2.marked
  mode : state.1 = false → state.2.marked = ∅

theorem FocusedBelow.next {bound : ℕ} {state : Bool × Focus} (h : FocusedBelow b bound state)
    (hbound : bound < b.graph.count) : FocusedBelow b (bound + 1) (b.markPriorityRoot state bound) := by
  unfold Setup.markPriorityRoot
  by_cases hroot : b.failedPrefix bound = true
  · rw [if_pos hroot]
    obtain ⟨hgrows, hmem⟩ := markPriorityFocus_spec hbound hbound state.2
    constructor
    · intro x hx
      by_cases hold : x ∈ state.2.marked
      · obtain ⟨hlt, hdeps⟩ := h.closed x hold
        exact ⟨hlt, fun dep hdep ↦ hgrows.subset (hdeps dep hdep)⟩
      · exact hgrows.closed x hx hold
    · have hremaining := hgrows.remaining
      have hstate := h.remaining
      dsimp only
      omega
    · intro id hid hretained
      rcases Nat.lt_succ_iff_lt_or_eq.mp hid with hid | rfl
      · exact hgrows.subset (h.roots id hid hretained)
      · exact hmem
    · exact fun hmode ↦ by cases hmode
  · rw [if_neg hroot]
    refine ⟨h.closed, h.remaining, fun id hid hretained ↦ ?_, h.mode⟩
    rcases Nat.lt_succ_iff_lt_or_eq.mp hid with hid | rfl
    · exact h.roots id hid hretained
    · exact absurd hretained hroot

theorem focusedBelow_markPriorityRoots : FocusedBelow b b.graph.count b.markPriorityRoots := by
  have hall : ∀ bound ≤ b.graph.count, FocusedBelow b bound
      ((List.range bound).foldl b.markPriorityRoot (false, ⟨∅, 0⟩)) := by
    intro bound
    induction bound with
    | zero =>
      intro _
      exact ⟨by simp, rfl, fun id hid ↦ absurd hid (Nat.not_lt_zero id), fun _ ↦ rfl⟩
    | succ bound ih =>
      intro hbound
      rw [List.range_succ, List.foldl_append]
      exact (ih (by omega)).next hbound
  exact hall _ (le_refl _)

/-! ### Taking a node from the ready list -/

theorem popMatchingReady_eq_none {matching : ℕ → Bool} {ready : List ℕ} : ∀ {before : List ℕ},
    popMatchingReady matching before ready = none ↔ ∀ id ∈ ready, matching id = false := by
  induction ready with
  | nil => simp [popMatchingReady]
  | cons id rest ih =>
    intro before
    rw [popMatchingReady]
    split
    · rename_i hid
      simp [hid]
    · rename_i hid
      rw [ih]
      simp [hid]

theorem popMatchingReady_eq_some {matching : ℕ → Bool} {ready others : List ℕ} :
    ∀ {before : List ℕ}, popMatchingReady matching before ready = some (id, others) →
      matching id = true ∧ ∃ front back, ready = front ++ id :: back ∧
        others = before.reverse ++ front ++ back := by
  induction ready with
  | nil => exact fun h ↦ by cases h
  | cons head rest ih =>
    intro before h
    rw [popMatchingReady] at h
    split at h
    · rename_i hhead
      obtain ⟨rfl, rfl⟩ := Prod.mk.inj (Option.some.inj h)
      exact ⟨hhead, [], rest, rfl, by simp⟩
    · obtain ⟨hid, front, back, rfl, rfl⟩ := ih h
      exact ⟨hid, head :: front, back, rfl, by simp⟩

variable {s s' : Shared}

/-- The shared state after a node was taken from the ready list. -/
structure Popped (b : Setup) (s : Shared) (id : ℕ) (priority : Bool) (s' : Shared) : Prop where
  priority_eq : priority = b.failedPrefix id
  taken : ∃ front back mode, s.readyState.ready = front ++ id :: back ∧
    s' = { s with
      readyState := ⟨front ++ back, ((front ++ back).countP b.failedPrefix : ℕ), s.readyState.remaining⟩
      priorityMode := mode } ∧ (mode = false → s.focusRemaining ≤ 0)

/-- Taking a node from the ready list. -/
theorem popped_of_popReady {priority : Bool}
    (hcount : s.readyState.priorityReady = (s.readyState.ready.countP b.failedPrefix : ℕ))
    (hmode : s.priorityMode = false → s.focusRemaining ≤ 0)
    (h : b.popReady s = (some (id, priority), s')) : Popped b s id priority s' := by
  have hmode' : ¬ (s.priorityMode && decide (0 < s.focusRemaining)) = true → s.focusRemaining ≤ 0 := by
    intro hnot
    by_cases hpriority : s.priorityMode = true
    · simpa [hpriority] using hnot
    · exact hmode (by simpa using hpriority)
  -- what is left of the ready list when the node at some place is taken
  have hleft : ∀ {front back : List ℕ}, s.readyState.ready = front ++ id :: back →
      ((front ++ back).countP b.failedPrefix : ℤ) =
        if b.failedPrefix id then s.readyState.priorityReady - 1 else s.readyState.priorityReady := by
    intro front back hready
    rw [hcount, hready, List.countP_append, List.countP_append, List.countP_cons]
    split
    · push_cast
      omega
    · simp
  unfold Setup.popReady at h
  dsimp only at h
  split at h
  · cases h
  · rename_i head rest hready
    split at h
    · rename_i hfocus
      split at h
      · rename_i focusId others hpop
        simp only [Prod.mk.injEq, Option.some.injEq] at h
        obtain ⟨⟨rfl, rfl⟩, rfl⟩ := h
        obtain ⟨-, front, back, hsplit, rfl⟩ := popMatchingReady_eq_some hpop
        have hready' := hready.trans hsplit
        refine ⟨rfl, front, back, s.priorityMode, hready', ?_, hmode⟩
        rw [hleft hready']
        rfl
      · cases h
    · rename_i hfocus
      have hhead : s.readyState.ready = [] ++ head :: rest := hready
      split at h
      · split at h
        · rename_i priorityId others hpop
          simp only [Prod.mk.injEq, Option.some.injEq] at h
          obtain ⟨⟨rfl, rfl⟩, rfl⟩ := h
          obtain ⟨hretained, front, back, hsplit, rfl⟩ := popMatchingReady_eq_some hpop
          have hready' := hready.trans hsplit
          refine ⟨hretained.symm, front, back, false, hready', ?_, fun _ ↦ hmode' hfocus⟩
          rw [hleft hready', if_pos hretained]
          rfl
        · -- some ready node has a failed prefix, so the search finds one
          rename_i hpositive hpop
          have hnone := popMatchingReady_eq_none.mp hpop
          rw [← hready] at hnone
          have hzero : s.readyState.ready.countP b.failedPrefix = 0 :=
            List.countP_eq_zero.mpr fun id hid ↦ by simp [hnone id hid]
          omega
      · rename_i hzero
        split at h
        · cases h
        · simp only [Prod.mk.injEq, Option.some.injEq] at h
          obtain ⟨⟨rfl, rfl⟩, rfl⟩ := h
          have hnone : s.readyState.ready.countP b.failedPrefix = 0 := by omega
          have hid : b.failedPrefix head = false := by
            have hall := List.countP_eq_zero.mp hnone head (by rw [hready]; exact List.mem_cons_self)
            simpa using hall
          refine ⟨hid.symm, [], rest, false, hhead, ?_, fun _ ↦ hmode' hfocus⟩
          rw [hleft hhead, if_neg (by simp [hid])]
          rfl

/-- Finding no node to take changes nothing but the mode, and finds none again. -/
theorem popReady_eq_none (hmode : s.priorityMode = false → s.focusRemaining ≤ 0)
    (h : b.popReady s = (none, s')) :
    ∃ mode, s' = { s with priorityMode := mode } ∧ (mode = false → s.focusRemaining ≤ 0) ∧
      b.popReady s' = (none, s') := by
  have hmode' : ¬ (s.priorityMode && decide (0 < s.focusRemaining)) = true → s.focusRemaining ≤ 0 := by
    intro hnot
    by_cases hpriority : s.priorityMode = true
    · simpa [hpriority] using hnot
    · exact hmode (by simpa using hpriority)
  have hwhole := h
  unfold Setup.popReady at h
  dsimp only at h
  split at h
  · obtain rfl := (Prod.mk.inj h).2
    exact ⟨s.priorityMode, rfl, hmode, hwhole⟩
  · rename_i head rest hready
    split at h
    · split at h
      · cases h
      · obtain rfl := (Prod.mk.inj h).2
        exact ⟨s.priorityMode, rfl, hmode, hwhole⟩
    · rename_i hfocus
      -- the mode is off now, and the other tests are as before
      have hagain : b.popReady { s with priorityMode := false } = b.popReady s := by
        unfold Setup.popReady
        dsimp only
        rw [hready]
        dsimp only
        rw [if_neg hfocus, if_neg (by simp)]
      have hsame : { s with priorityMode := false } = s' := by
        split at h
        · split at h
          · cases h
          · split at h
            · exact (Prod.mk.inj h).2
            · cases h
        · split at h
          · exact (Prod.mk.inj h).2
          · cases h
      refine ⟨false, hsame.symm, fun _ ↦ hmode' hfocus, ?_⟩
      rw [← hsame, hagain, hwhole, hsame]

/-- There is a node to take when some node is ready, a focused one while any is left, and no node
with a failed prefix runs. -/
theorem popReady_isSome (hready : s.readyState.ready ≠ [])
    (hfocus : s.priorityMode = true → 0 < s.focusRemaining →
      ∃ id ∈ s.readyState.ready, id ∈ b.priorityFocus) (hrunning : s.priorityRunning ≤ 0) :
    (b.popReady s).1.isSome := by
  unfold Setup.popReady
  dsimp only
  split
  · contradiction
  · rename_i head rest hcons
    split
    · rename_i hmode
      rw [Bool.and_eq_true, decide_eq_true_eq] at hmode
      obtain ⟨id, hid, hmarked⟩ := hfocus hmode.1 hmode.2
      split
      · rfl
      · rename_i hpop
        have hnot := popMatchingReady_eq_none.mp hpop id (hcons ▸ hid)
        simp [hmarked] at hnot
    · split
      · split
        · rfl
        · rw [if_neg (by simpa using hrunning)]
          rfl
      · rw [if_neg (by simpa using hrunning)]
        rfl

end Holbuild.ParallelBuild
