import Holbuild.ParallelBuild.ReadyNodes

/-!
# What the scheduler's counters count

`Ledger` relates the counters and the active nodes to the nodes started and ended so far, and `Books`
adds the ready list and, as long as nothing stops the build, that every node that ended succeeded.
Every section that starts or finishes a node keeps them, and they leave a node to take whenever none
is active and not all are built (`Books.popReady_isSome`).
-/

set_option autoImplicit false
set_option relaxedAutoImplicit false

namespace Holbuild.ParallelBuild

open Library

variable {b : Setup} {s s' : Shared} {id : ℕ}

/-- The counters and the active nodes agree with what happened. -/
structure Ledger (b : Setup) (s : Shared) : Prop where
  started_nodup : s.history.started.Nodup
  started_lt : ∀ id ∈ s.history.started, id < b.graph.count
  ended_nodup : s.history.ended.Nodup
  ended_subset : ∀ id ∈ s.history.ended, id ∈ s.history.started
  succeeded_subset : ∀ id ∈ s.history.succeeded, id ∈ s.history.ended
  active_iff : ∀ id, id ∈ s.activeIds ↔ id ∈ s.history.started ∧ id ∉ s.history.ended
  running : s.running = s.activeIds.card
  priorityRunning : s.priorityRunning = (s.activeIds.filter fun id ↦ b.failedPrefix id).card
  focusRemaining : s.focusRemaining = (b.priorityFocus.filter fun id ↦ id ∉ s.history.ended).card
  mode : s.priorityMode = false → s.focusRemaining ≤ 0
  deps : ∀ id ∈ s.history.started, ∀ dep ∈ b.graph.deps id, dep ∈ s.history.succeeded

/-- The ledger with the ready list, and with what is so until something stops the build. -/
structure Books (b : Setup) (s : Shared) : Prop extends Ledger b s where
  ready : s.stopped = false → ReadyFor b s.history.started s.history.succeeded s.readyState
  clean : s.failure = none → s.stopped = false →
    s.history.ended = s.history.succeeded ∧ s.completed = s.history.ended.length

theorem books_initial (jobs : ℕ) : Books b (b.initial jobs) := by
  have hfocus := focusedBelow_markPriorityRoots (b := b)
  constructor
  · constructor
    · exact List.nodup_nil
    · exact fun id hid ↦ absurd hid List.not_mem_nil
    · exact List.nodup_nil
    · exact fun id hid ↦ absurd hid List.not_mem_nil
    · exact fun id hid ↦ absurd hid List.not_mem_nil
    · exact fun id ↦ ⟨fun h ↦ absurd h (Finset.notMem_empty id), fun h ↦ absurd h.1 List.not_mem_nil⟩
    · rfl
    · rfl
    · show b.markPriorityRoots.2.remaining = _
      rw [hfocus.remaining]
      simp [Setup.initial, Setup.priorityFocus]
    · intro hmode
      show b.markPriorityRoots.2.remaining ≤ 0
      rw [hfocus.remaining, hfocus.mode hmode]
      simp
    · exact fun id hid ↦ absurd hid List.not_mem_nil
  · exact fun _ ↦ readyFor_registerNodes
  · exact fun _ _ ↦ ⟨rfl, rfl⟩

/-- The books do not mention checkpoint maintenance and the number of workers left. -/
theorem Books.of_maintenance (h : Books b s) (owner : Option ℕ) (queue : List ℕ) (active : ℤ)
    (queued granted : List ℕ) :
    Books b { s with
      owner := owner
      queue := queue
      active := active
      history := { s.history with queued := queued, granted := granted } } where
  started_nodup := h.started_nodup
  started_lt := h.started_lt
  ended_nodup := h.ended_nodup
  ended_subset := h.ended_subset
  succeeded_subset := h.succeeded_subset
  active_iff := h.active_iff
  running := h.running
  priorityRunning := h.priorityRunning
  focusRemaining := h.focusRemaining
  mode := h.mode
  deps := h.deps
  ready := h.ready
  clean := h.clean

theorem Books.of_mode (h : Books b s) {mode : Bool} (hmode : mode = false → s.focusRemaining ≤ 0) :
    Books b { s with priorityMode := mode } where
  started_nodup := h.started_nodup
  started_lt := h.started_lt
  ended_nodup := h.ended_nodup
  ended_subset := h.ended_subset
  succeeded_subset := h.succeeded_subset
  active_iff := h.active_iff
  running := h.running
  priorityRunning := h.priorityRunning
  focusRemaining := h.focusRemaining
  mode := hmode
  deps := h.deps
  ready := h.ready
  clean := h.clean

/-! ### Starting a node -/

/-- A node that is started was ready: it is new, and its dependencies succeeded. -/
theorem Books.popped (h : Books b s) (hstopped : s.stopped = false) {priority : Bool}
    (hpop : Popped b s id priority s') : id < b.graph.count ∧ id ∉ s.history.started ∧
      ∀ dep ∈ b.graph.deps id, dep ∈ s.history.succeeded := by
  obtain ⟨front, back, mode, hready, -, -⟩ := hpop.taken
  refine ((h.ready hstopped).mem id).mp ?_
  rw [hready]
  exact List.mem_append_right _ List.mem_cons_self

theorem Books.start (h : Books b s) (hstopped : s.stopped = false) {priority : Bool}
    (hpop : Popped b s id priority s') : Books b (startNode s' id priority) := by
  obtain ⟨hlt, hnew, hdeps⟩ := h.popped hstopped hpop
  obtain ⟨hpriority, front, back, mode, hready, rfl, hmode⟩ := hpop
  have hinactive : id ∉ s.activeIds := fun hid ↦ hnew ((h.active_iff id).mp hid).1
  have hended : id ∉ s.history.ended := fun hid ↦ hnew (h.ended_subset id hid)
  have hr := h.ready hstopped
  have hnodup := hr.nodup
  rw [hready] at hnodup
  constructor
  · constructor
    · show (s.history.started ++ [id]).Nodup
      exact h.started_nodup.append (List.nodup_singleton id) (List.disjoint_singleton.mpr hnew)
    · intro other hother
      rcases List.mem_append.mp hother with hold | hother
      · exact h.started_lt other hold
      · exact List.mem_singleton.mp hother ▸ hlt
    · exact h.ended_nodup
    · exact fun other hother ↦ List.mem_append_left _ (h.ended_subset other hother)
    · exact h.succeeded_subset
    · intro other
      show other ∈ insert id s.activeIds ↔ other ∈ s.history.started ++ [id] ∧ other ∉ s.history.ended
      rw [Finset.mem_insert, h.active_iff, List.mem_append, List.mem_singleton]
      constructor
      · rintro (rfl | ⟨hstarted, hend⟩)
        · exact ⟨.inr rfl, hended⟩
        · exact ⟨.inl hstarted, hend⟩
      · rintro ⟨hstarted | rfl, hend⟩
        · exact .inr ⟨hstarted, hend⟩
        · exact .inl rfl
    · show s.running + 1 = (insert id s.activeIds).card
      rw [Finset.card_insert_of_notMem hinactive, h.running]
      push_cast
      rfl
    · show (if priority then s.priorityRunning + 1 else s.priorityRunning) =
        ((insert id s.activeIds).filter fun id ↦ b.failedPrefix id).card
      rw [hpriority, h.priorityRunning, Finset.filter_insert]
      split
      · rw [Finset.card_insert_of_notMem fun hid ↦ hinactive (Finset.mem_of_mem_filter _ hid)]
        push_cast
        rfl
      · rfl
    · exact h.focusRemaining
    · exact hmode
    · intro other hother
      rcases List.mem_append.mp hother with hold | hother
      · exact h.deps other hold
      · exact List.mem_singleton.mp hother ▸ hdeps
  · intro _
    show ReadyFor b (s.history.started ++ [id]) s.history.succeeded
      ⟨front ++ back, ((front ++ back).countP b.failedPrefix : ℕ), s.readyState.remaining⟩
    obtain ⟨hfront, hback, hdisjoint⟩ := List.nodup_append'.mp hnodup
    obtain ⟨hidback, hback⟩ := List.nodup_cons.mp hback
    have hidfront : id ∉ front := fun hid ↦ hdisjoint hid List.mem_cons_self
    refine ⟨hr.remaining, fun other ↦ ?_, ?_, rfl⟩
    · have hmem := hr.mem other
      rw [hready, List.mem_append, List.mem_cons] at hmem
      rw [List.mem_append]
      constructor
      · intro hother
        have hne : other ≠ id := by
          rintro rfl
          exact hother.elim hidfront hidback
        obtain ⟨hother, hstarted, hall⟩ := hmem.mp (hother.imp_right .inr)
        exact ⟨hother, fun h ↦ (List.mem_append.mp h).elim hstarted fun h ↦
          hne (List.mem_singleton.mp h), hall⟩
      · rintro ⟨hother, hstarted, hall⟩
        rcases hmem.mpr ⟨hother, fun h ↦ hstarted (List.mem_append_left _ h), hall⟩ with
          hin | rfl | hin
        · exact .inl hin
        · exact absurd (List.mem_append_right _ (List.mem_singleton_self _)) hstarted
        · exact .inr hin
    · exact hfront.append hback fun x hx hx' ↦ hdisjoint hx (List.mem_cons_of_mem _ hx')
  · exact h.clean

/-! ### Finishing a node -/

theorem Ledger.close (h : Ledger b s) (hid : id ∈ s.activeIds) : Ledger b (b.closeNode s id) := by
  obtain ⟨hstarted, hended⟩ := (h.active_iff id).mp hid
  constructor
  · exact h.started_nodup
  · exact h.started_lt
  · show (s.history.ended ++ [id]).Nodup
    exact h.ended_nodup.append (List.nodup_singleton id) (List.disjoint_singleton.mpr hended)
  · intro other hother
    rcases List.mem_append.mp hother with hold | hother
    · exact h.ended_subset other hold
    · exact List.mem_singleton.mp hother ▸ hstarted
  · exact fun other hother ↦ List.mem_append_left _ (h.succeeded_subset other hother)
  · intro other
    show other ∈ s.activeIds.erase id ↔
      other ∈ s.history.started ∧ other ∉ s.history.ended ++ [id]
    rw [Finset.mem_erase, h.active_iff, List.mem_append, List.mem_singleton]
    tauto
  · show s.running - 1 = (s.activeIds.erase id).card
    have hcard := Finset.card_erase_add_one hid
    rw [h.running]
    omega
  · show (if b.failedPrefix id then s.priorityRunning - 1 else s.priorityRunning) =
      ((s.activeIds.erase id).filter fun id ↦ b.failedPrefix id).card
    rw [h.priorityRunning, Finset.filter_erase]
    split
    · rename_i hretained
      have hmem : id ∈ s.activeIds.filter fun id ↦ b.failedPrefix id :=
        Finset.mem_filter.mpr ⟨hid, hretained⟩
      have hcard := Finset.card_erase_add_one hmem
      omega
    · rename_i hretained
      have hmem : id ∉ s.activeIds.filter fun id ↦ b.failedPrefix id :=
        fun h ↦ hretained (Finset.mem_filter.mp h).2
      rw [Finset.erase_eq_of_notMem hmem]
  · show (if id ∈ b.priorityFocus then s.focusRemaining - 1 else s.focusRemaining) =
      (b.priorityFocus.filter fun id' ↦ id' ∉ s.history.ended ++ [id]).card
    have hfilter : (b.priorityFocus.filter fun id' ↦ id' ∉ s.history.ended ++ [id]) =
        (b.priorityFocus.filter fun id' ↦ id' ∉ s.history.ended).erase id := by
      ext other
      simp only [Finset.mem_filter, Finset.mem_erase, List.mem_append, List.mem_singleton]
      tauto
    rw [h.focusRemaining, hfilter]
    split
    · rename_i hfocus
      have hmem : id ∈ b.priorityFocus.filter fun id' ↦ id' ∉ s.history.ended :=
        Finset.mem_filter.mpr ⟨hfocus, hended⟩
      have hcard := Finset.card_erase_add_one hmem
      omega
    · rename_i hfocus
      have hmem : id ∉ b.priorityFocus.filter fun id' ↦ id' ∉ s.history.ended :=
        fun h ↦ hfocus (Finset.mem_filter.mp h).1
      rw [Finset.erase_eq_of_notMem hmem]
  · intro hmode
    have hremaining := h.mode hmode
    show (if id ∈ b.priorityFocus then s.focusRemaining - 1 else s.focusRemaining) ≤ 0
    split
    · omega
    · exact hremaining
  · exact h.deps

theorem Books.finishSuccess (h : Books b s) (hid : id ∈ s.activeIds) :
    Books b (b.finishSuccessTransitionLocked s id) := by
  obtain ⟨hstarted, hended⟩ := (h.active_iff id).mp hid
  have hclosed := h.toLedger.close hid
  have hsucceeded : id ∉ s.history.succeeded := fun hs ↦ hended (h.succeeded_subset id hs)
  have hledger : ∀ r completed, Ledger b { b.closeNode s id with
      readyState := r
      completed := completed
      history := { (b.closeNode s id).history with
        succeeded := s.history.succeeded ++ [id] } } := by
    intro r completed
    exact {
      started_nodup := hclosed.started_nodup
      started_lt := hclosed.started_lt
      ended_nodup := hclosed.ended_nodup
      ended_subset := hclosed.ended_subset
      succeeded_subset := by
        intro other hother
        rcases List.mem_append.mp hother with hold | hother
        · exact hclosed.succeeded_subset other hold
        · exact List.mem_append_right _ hother
      active_iff := hclosed.active_iff
      running := hclosed.running
      priorityRunning := hclosed.priorityRunning
      focusRemaining := hclosed.focusRemaining
      mode := hclosed.mode
      deps := fun other hother dep hdep ↦ List.mem_append_left _ (h.deps other hother dep hdep) }
  have hclean : s.failure = none → s.stopped = false →
      s.history.ended ++ [id] = s.history.succeeded ++ [id] ∧
        s.completed + 1 = (s.history.ended ++ [id]).length := by
    intro hfailure hstopped
    obtain ⟨hsame, hcompleted⟩ := h.clean hfailure hstopped
    rw [hsame] at hcompleted ⊢
    refine ⟨rfl, ?_⟩
    rw [hcompleted, List.length_append]
    simp
  unfold Setup.finishSuccessTransitionLocked
  dsimp only
  split
  · rename_i hstopped
    exact ⟨hledger _ _, fun h ↦ absurd (h.symm.trans hstopped) (by decide), hclean⟩
  · rename_i hstopped
    have hrunning : s.stopped = false := Bool.not_eq_true _ ▸ hstopped
    exact ⟨hledger _ _, fun _ ↦ (h.ready hrunning).release hsucceeded h.deps, hclean⟩

theorem Books.finishInspected (h : Books b s) (hid : id ∈ s.activeIds) :
    Books b (b.finishInspectedLocked s id) := by
  have hclosed := h.toLedger.close hid
  exact {
    started_nodup := hclosed.started_nodup
    started_lt := hclosed.started_lt
    ended_nodup := hclosed.ended_nodup
    ended_subset := hclosed.ended_subset
    succeeded_subset := hclosed.succeeded_subset
    active_iff := hclosed.active_iff
    running := hclosed.running
    priorityRunning := hclosed.priorityRunning
    focusRemaining := hclosed.focusRemaining
    mode := hclosed.mode
    deps := hclosed.deps
    ready := fun hstopped ↦ by cases hstopped
    clean := fun _ hstopped ↦ by cases hstopped }

/-- A node that ends after the build was stopped. -/
theorem Books.close (h : Books b s) (hid : id ∈ s.activeIds) (hstopped : s.stopped = true) :
    Books b (b.closeNode s id) :=
  ⟨h.toLedger.close hid, fun hnot ↦ absurd (hnot.symm.trans hstopped) (by decide),
    fun _ hnot ↦ absurd (hnot.symm.trans hstopped) (by decide)⟩

theorem Books.finishFailure (h : Books b s) (hid : id ∈ s.activeIds) (message : Text) :
    Books b (b.finishFailureLocked s id message) := by
  have hclosed := h.toLedger.close hid
  unfold Setup.finishFailureLocked
  dsimp only
  split
  · rename_i hstopped
    exact h.close hid hstopped
  · split
    · rename_i hfailure
      refine ⟨hclosed, h.ready, fun hnone ↦ ?_⟩
      rw [hfailure] at hnone
      cases hnone
    · exact {
        started_nodup := hclosed.started_nodup
        started_lt := hclosed.started_lt
        ended_nodup := hclosed.ended_nodup
        ended_subset := hclosed.ended_subset
        succeeded_subset := hclosed.succeeded_subset
        active_iff := hclosed.active_iff
        running := hclosed.running
        priorityRunning := hclosed.priorityRunning
        focusRemaining := hclosed.focusRemaining
        mode := hclosed.mode
        deps := hclosed.deps
        ready := h.ready
        clean := fun hfailure ↦ by cases hfailure }

/-! ### There is work left -/

/-- Of a set of nodes closed under dependencies, some node is ready while not all have ended. -/
theorem Books.exists_ready (h : Books b s) (hfailure : s.failure = none) (hstopped : s.stopped = false)
    (hactive : s.activeIds = ∅) {P : ℕ → Prop}
    (hclosed : ∀ id, P id → id < b.graph.count ∧ ∀ dep ∈ b.graph.deps id, P dep)
    (hleft : ∃ id, P id ∧ id ∉ s.history.ended) : ∃ id ∈ s.readyState.ready, P id := by
  classical
  obtain ⟨hsame, -⟩ := h.clean hfailure hstopped
  -- the first node left waits for none of the others
  obtain ⟨hfirst, hended⟩ := Nat.find_spec hleft
  obtain ⟨hlt, hdeps⟩ := hclosed _ hfirst
  refine ⟨Nat.find hleft, ((h.ready hstopped).mem _).mpr ⟨hlt, fun hstarted ↦ ?_, fun dep hdep ↦ ?_⟩,
    hfirst⟩
  · have hactive' := (h.active_iff _).mpr ⟨hstarted, hended⟩
    rw [hactive] at hactive'
    exact Finset.notMem_empty _ hactive'
  · by_contra hdep'
    rw [← hsame] at hdep'
    exact Nat.find_min hleft (b.graph.lt _ dep hdep) ⟨hdeps dep hdep, hdep'⟩

/-- A build that nothing stopped and that has no active node either ended all nodes or can start one. -/
theorem Books.popReady_isSome (h : Books b s) (hfailure : s.failure = none)
    (hstopped : s.stopped = false) (hactive : s.activeIds = ∅)
    (hcompleted : s.completed ≠ b.graph.count) : (b.popReady s).1.isSome := by
  obtain ⟨-, hlength⟩ := h.clean hfailure hstopped
  have hfocus := focusedBelow_markPriorityRoots (b := b)
  have hleft : ∃ id, id < b.graph.count ∧ id ∉ s.history.ended := by
    by_contra hnone
    push Not at hnone
    have hsub : List.range b.graph.count ⊆ s.history.ended :=
      fun id hid ↦ hnone id (List.mem_range.mp hid)
    have hsub' : s.history.ended ⊆ List.range b.graph.count :=
      fun id hid ↦ List.mem_range.mpr (h.started_lt id (h.ended_subset id hid))
    have hperm := (List.perm_ext_iff_of_nodup h.ended_nodup List.nodup_range).mpr
      fun id ↦ ⟨fun hid ↦ hsub' hid, fun hid ↦ hsub hid⟩
    rw [hlength, hperm.length_eq, List.length_range] at hcompleted
    exact hcompleted rfl
  refine ParallelBuild.popReady_isSome ?_ (fun _ hremaining ↦ ?_) ?_
  · obtain ⟨id, hid, -⟩ := h.exists_ready hfailure hstopped hactive (P := (· < b.graph.count))
      (fun id hid ↦ ⟨hid, fun dep hdep ↦ (b.graph.lt id dep hdep).trans hid⟩) hleft
    exact List.ne_nil_of_mem hid
  · rw [h.focusRemaining] at hremaining
    obtain ⟨id, hid⟩ := Finset.card_pos.mp (Int.natCast_pos.mp hremaining)
    obtain ⟨hmarked, hended⟩ := Finset.mem_filter.mp hid
    exact h.exists_ready hfailure hstopped hactive (P := (· ∈ b.priorityFocus)) hfocus.closed
      ⟨id, hmarked, hended⟩
  · rw [h.priorityRunning, hactive]
    simp

end Holbuild.ParallelBuild
