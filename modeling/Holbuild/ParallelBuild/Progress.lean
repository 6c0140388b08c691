import Holbuild.ParallelBuild.Workers
import Mathlib.Data.Prod.Lex

/-!
# The scheduler makes progress

Every step either starts a node, or leaves its worker nearer to its exit, or makes it wait, or removes
one family of an eviction; so every step lowers `rank` and no run goes on for ever. While a worker has
not exited some worker can step (`exists_step`): a complete run ends with all workers gone.
-/

set_option autoImplicit false
set_option relaxedAutoImplicit false

namespace Holbuild.ParallelBuild

open Library

variable {b : Setup} {jobs : ℕ} {s next : State jobs} {event : Event jobs} {id : ℕ}

/-! ### Ranks -/

/-- How far a worker is from its exit, where looking for work counts as near. -/
def Worker.distance : Worker → ℕ
  | .exited => 0
  | .exiting => 1
  | .idle => 2
  | .waitingWork => 2
  | .succeeding _ => 4
  | .waitingSuccess _ => 4
  | .inspecting _ => 4
  | .failing _ _ => 4
  | .cancelling _ => 4
  | .raised _ _ => 5
  | .finishing _ => 5
  | .evicting _ _ _ => 6
  | .maintaining _ _ => 7
  | .turning _ => 8
  | .waitingTurn _ => 8
  | .requesting _ => 9
  | .building _ => 10

/-- One when the worker can step. -/
def Worker.awake : Worker → ℕ
  | .waitingWork => 0
  | .waitingSuccess _ => 0
  | .waitingTurn _ => 0
  | .exited => 0
  | _ => 1

/-- The families left to remove. -/
def Worker.pending : Worker → ℕ
  | .evicting _ _ pending => pending.length
  | _ => 0

theorem Worker.distance_woken (worker : Worker) : worker.woken.distance = worker.distance := by
  cases worker <;> rfl

theorem Worker.awake_le_one (worker : Worker) : worker.awake ≤ 1 := by
  cases worker <;> simp [awake]

/-- What is left to do: nodes to start, and workers to leave. -/
def potential (b : Setup) (s : State jobs) : ℕ :=
  10 * (b.graph.count - s.shared.history.started.length) + tally Worker.distance s.workers

def rank (b : Setup) (s : State jobs) : ℕ ×ₗ ℕ :=
  toLex ((jobs + 1) * potential b s + tally Worker.awake s.workers, tally Worker.pending s.workers)

/-- When less is left to do, the rank is lower, whoever was woken. -/
theorem rank_lt_of_potential_lt (h : potential b next < potential b s) : rank b next < rank b s := by
  refine Prod.Lex.toLex_lt_toLex.mpr (.inl ?_)
  have hawake : tally Worker.awake next.workers ≤ jobs := by
    simpa using @tally_le_card _ _ _ Worker.awake next.workers Worker.awake_le_one
  have hmul : (jobs + 1) * potential b next + (jobs + 1) ≤ (jobs + 1) * potential b s := by
    rw [← Nat.mul_succ]
    exact Nat.mul_le_mul_left _ h
  omega

/-! ### What a step does -/

/-- A failure or an inspected node ended the starting of nodes. -/
def Shared.Halted (s : Shared) : Prop := s.failure ≠ none ∨ s.stopped = true

/-- What every step keeps: that the build was halted, and who queued for maintenance. -/
structure Onward (s s' : Shared) : Prop where
  halted : s.Halted → s'.Halted
  queued : s.history.queued <+: s'.history.queued

theorem Onward.refl (s : Shared) : Onward s s := ⟨fun h ↦ h, List.prefix_rfl⟩

theorem Closes.onward {s s' : Shared} (h : Closes b s id s') : Onward s s' :=
  ⟨fun halted ↦ halted.imp h.failure h.stopped, h.queued ▸ List.prefix_rfl⟩

theorem onward_enqueue (s : Shared) : Onward s (enqueueCheckpointMaintenanceLocked s id) := by
  unfold enqueueCheckpointMaintenanceLocked
  dsimp only
  split
  · exact ⟨fun h ↦ h, List.prefix_append ..⟩
  · exact ⟨fun h ↦ h, List.prefix_append ..⟩

/-- The effect of a worker's step on the places of the workers and the nodes started. -/
inductive Effect (b : Setup) (s next : State jobs) (w : Fin jobs) : Prop
  | goes (worker : Worker) (workers : next.workers = Function.update s.workers w worker)
      (started : next.shared.history.started = s.shared.history.started)
      (onward : Onward s.shared next.shared)
      (nearer : worker.distance < (s.workers w).distance ∨
        worker.distance = (s.workers w).distance ∧ (worker.awake < (s.workers w).awake ∨
          worker.awake = (s.workers w).awake ∧ worker.pending < (s.workers w).pending))
  | signals (worker : Worker)
      (workers : next.workers = Function.update (fun v ↦ (s.workers v).woken) w worker)
      (started : next.shared.history.started = s.shared.history.started)
      (onward : Onward s.shared next.shared)
      (nearer : worker.distance < (s.workers w).distance)
  | starts (id : ℕ) (priority : Bool) (idle : s.workers w = .idle)
      (workers : next.workers = Function.update s.workers w (.building id))
      (started : next.shared.history.started = s.shared.history.started ++ [id])
      (onward : Onward s.shared next.shared)
      (failure : s.shared.failure = none) (stopped : s.shared.stopped = false)
      (owner : s.shared.owner = none)

theorem Valid.effect (h : Valid b s) (hnext : b.step s event = some next) :
    Effect b s next event.worker := by
  have hheld : ∀ {id : ℕ}, (s.workers event.worker).node? = some id → id ∈ s.shared.activeIds :=
    fun hnode ↦ (h.active.holds _).mpr ⟨event.worker, hnode⟩
  have hmeans := h.means event.worker
  unfold Setup.step at hnext
  dsimp only at hnext
  cases hw : s.workers event.worker with
  | idle =>
    rw [hw] at hnext
    dsimp only at hnext
    unfold Setup.nextWorkLocked at hnext
    by_cases hfailure : s.shared.failure.isSome
    · rw [if_pos hfailure] at hnext
      obtain rfl := Option.some.inj hnext
      exact .goes _ rfl rfl (.refl _) (.inl (by rw [hw]; decide))
    rw [if_neg hfailure] at hnext
    by_cases hstopped : s.shared.stopped = true
    · rw [if_pos hstopped] at hnext
      obtain rfl := Option.some.inj hnext
      exact .goes _ rfl rfl (.refl _) (.inl (by rw [hw]; decide))
    rw [if_neg hstopped] at hnext
    by_cases howner : s.shared.owner.isSome
    · rw [if_pos howner] at hnext
      obtain rfl := Option.some.inj hnext
      exact .goes _ rfl rfl (.refl _) (.inr ⟨by rw [hw]; rfl, .inl (by rw [hw]; decide)⟩)
    rw [if_neg howner] at hnext
    have hrunning : s.shared.stopped = false := by simpa using hstopped
    rcases hpop : b.popReady s.shared with ⟨_ | ⟨id, priority⟩, shared⟩
    · rw [hpop] at hnext
      dsimp only at hnext
      obtain ⟨mode, rfl, -, -⟩ := popReady_eq_none h.books.mode hpop
      by_cases hdone : s.shared.completed = b.graph.count ∧ s.shared.running = 0
      · rw [if_pos hdone] at hnext
        obtain rfl := Option.some.inj hnext
        exact .goes _ rfl rfl ⟨fun h ↦ h, List.prefix_rfl⟩ (.inl (by rw [hw]; decide))
      · rw [if_neg hdone] at hnext
        obtain rfl := Option.some.inj hnext
        exact .goes _ rfl rfl ⟨fun h ↦ h, List.prefix_rfl⟩ (.inr ⟨by rw [hw]; rfl, .inl (by rw [hw]; decide)⟩)
    · rw [hpop] at hnext
      obtain rfl := Option.some.inj hnext
      obtain ⟨-, front, back, mode, -, rfl, -⟩ :=
        popped_of_popReady (h.books.ready hrunning).priorityReady h.books.mode hpop
      exact .starts id priority hw rfl rfl ⟨fun h ↦ h, List.prefix_rfl⟩ (by simpa using hfailure) hrunning (by simpa using howner)
  | building id =>
    rw [hw] at hnext
    dsimp only at hnext
    split at hnext
    · obtain rfl := Option.some.inj hnext
      refine .goes _ rfl rfl (.refl _) (.inl ?_)
      rw [hw]
      split
      · exact Nat.lt_succ_self 9
      · exact (by decide : 4 < 10)
    · obtain rfl := Option.some.inj hnext
      exact .goes _ rfl rfl (.refl _) (.inl (by rw [hw]; exact (by decide : 4 < 10)))
    · obtain rfl := Option.some.inj hnext
      exact .goes _ rfl rfl (.refl _) (.inl (by rw [hw]; exact (by decide : 5 < 10)))
  | succeeding id =>
    rw [hw] at hnext hheld
    dsimp only at hnext
    split at hnext
    · obtain rfl := Option.some.inj hnext
      have hcloses := closes_finishSuccess h.books (hheld rfl)
      exact .signals _ rfl hcloses.started hcloses.onward (by rw [hw]; exact (by decide : 2 < 4))
    · obtain rfl := Option.some.inj hnext
      exact .goes _ rfl rfl (.refl _) (.inr ⟨by rw [hw]; rfl, .inl (by rw [hw]; exact Nat.zero_lt_one)⟩)
  | requesting id =>
    rw [hw] at hnext
    obtain rfl := Option.some.inj hnext
    have hstarted : (enqueueCheckpointMaintenanceLocked s.shared id).history.started =
        s.shared.history.started := by
      unfold enqueueCheckpointMaintenanceLocked
      dsimp only
      split <;> rfl
    have howner := (Valid.enqueued id h.queue h.fifo h.last).2.2.2.1
    unfold Setup.waitForTurn
    split
    · split
      · exact .goes _ rfl hstarted (onward_enqueue _) (.inl (by rw [hw]; exact (by decide : 7 < 9)))
      · exact .goes _ rfl hstarted (onward_enqueue _) (.inl (by rw [hw]; exact (by decide : 8 < 9)))
    · rename_i hnone
      exact absurd hnone howner
  | turning id =>
    rw [hw] at hnext
    obtain rfl := Option.some.inj hnext
    have hline : id ∈ s.shared.line := (h.line.holds id).mpr ⟨event.worker, by rw [hw]; rfl⟩
    unfold Setup.waitForTurn
    split
    · split
      · exact .goes _ rfl rfl (.refl _) (.inl (by rw [hw]; exact (by decide : 7 < 8)))
      · exact .goes _ rfl rfl (.refl _) (.inr ⟨by rw [hw]; rfl, .inl (by rw [hw]; exact Nat.zero_lt_one)⟩)
    · rename_i howner
      rw [Shared.line, howner, h.queue howner] at hline
      cases hline
  | maintaining id protectedBases =>
    rw [hw] at hnext
    obtain rfl := Option.some.inj hnext
    exact .goes _ rfl rfl (.refl _) (.inl (by rw [hw]; exact (by decide : 6 < 7)))
  | evicting id protectedBases pending =>
    rw [hw] at hnext
    dsimp only at hnext
    split at hnext
    · obtain rfl := Option.some.inj hnext
      exact .goes _ rfl rfl (.refl _) (.inl (by rw [hw]; exact (by decide : 5 < 6)))
    · obtain rfl := Option.some.inj hnext
      split
      · exact .goes _ rfl rfl (.refl _) (.inl (by rw [hw]; exact (by decide : 5 < 6)))
      · refine .goes _ rfl rfl (.refl _) (.inr ⟨by rw [hw]; rfl, .inr ⟨by rw [hw]; rfl, ?_⟩⟩)
        rw [hw]
        exact Nat.lt_succ_self _
  | finishing id =>
    rw [hw] at hnext hmeans hheld
    obtain rfl := Option.some.inj hnext
    have hcloses := closes_finishSuccess h.books (hheld rfl)
    have howner : s.shared.owner = some id := hmeans
    unfold Setup.finishCheckpointMaintenance
    generalize b.finishSuccessTransitionLocked s.shared id = shared at hcloses
    have hstarted : (advanceCheckpointMaintenanceLocked shared).history.started =
        s.shared.history.started := by
      rw [← hcloses.started]
      unfold advanceCheckpointMaintenanceLocked
      split <;> rfl
    have honward : Onward s.shared (advanceCheckpointMaintenanceLocked shared) := by
      unfold advanceCheckpointMaintenanceLocked
      split
      · exact ⟨hcloses.onward.halted, hcloses.onward.queued⟩
      · exact ⟨hcloses.onward.halted, hcloses.onward.queued⟩
    dsimp only
    rw [hcloses.owner, howner]
    dsimp only
    rw [if_pos rfl]
    exact .signals _ rfl hstarted honward (by rw [hw]; exact (by decide : 2 < 5))
  | inspecting id =>
    rw [hw] at hnext hheld
    obtain rfl := Option.some.inj hnext
    have hcloses := closes_finishInspected h.books (hheld rfl)
    exact .signals _ rfl hcloses.started hcloses.onward
      (by rw [hw]; exact (by decide : 2 < 4))
  | raised id message =>
    rw [hw] at hnext
    obtain rfl := Option.some.inj hnext
    refine .goes _ rfl rfl (.refl _) (.inl ?_)
    rw [hw]
    split <;> exact Nat.lt_succ_self 4
  | cancelling id =>
    rw [hw] at hnext
    obtain rfl := Option.some.inj hnext
    exact .signals _ rfl rfl ⟨fun h ↦ h, List.prefix_rfl⟩ (by rw [hw]; exact (by decide : 1 < 4))
  | failing id message =>
    rw [hw] at hnext hheld
    obtain rfl := Option.some.inj hnext
    have hcloses := (closes_finishFailure h.books (hheld rfl) message).1
    exact .signals _ rfl hcloses.started hcloses.onward
      (by rw [hw]; exact (by decide : 1 < 4))
  | exiting =>
    rw [hw] at hnext
    obtain rfl := Option.some.inj hnext
    exact .signals _ rfl rfl ⟨fun h ↦ h, List.prefix_rfl⟩ (by rw [hw]; decide)
  | waitingWork =>
    rw [hw] at hnext
    cases hnext
  | waitingSuccess id =>
    rw [hw] at hnext
    cases hnext
  | waitingTurn id =>
    rw [hw] at hnext
    cases hnext
  | exited =>
    rw [hw] at hnext
    cases hnext

/-- Every step lowers the rank. -/
theorem Valid.rank_lt (h : Valid b s) (hnext : b.step s event = some next) : rank b next < rank b s := by
  have hvalid := h.step hnext
  rcases h.effect hnext with ⟨worker, hworkers, hstarted, -, hnearer⟩ |
    ⟨worker, hworkers, hstarted, -, hnearer⟩ | ⟨id, priority, hidle, hworkers, hstarted, -, -, -, -⟩
  · have hdistance := @tally_update _ _ _ Worker.distance s.workers event.worker worker _
    have hawake := @tally_update _ _ _ Worker.awake s.workers event.worker worker _
    have hpending := @tally_update _ _ _ Worker.pending s.workers event.worker worker _
    rw [← hworkers] at hdistance hawake hpending
    rcases hnearer with hlt | ⟨heq, hnearer⟩
    · refine rank_lt_of_potential_lt ?_
      unfold potential
      rw [hstarted]
      omega
    · -- nothing less to do: the worker waits, or has one family less to remove
      have hpotential : potential b next = potential b s := by
        unfold potential
        rw [hstarted]
        omega
      refine Prod.Lex.toLex_lt_toLex.mpr ?_
      dsimp only
      rw [hpotential]
      rcases hnearer with hlt | ⟨hsame, hlt⟩
      · exact .inl (by omega)
      · exact .inr ⟨by omega, by omega⟩
  · refine rank_lt_of_potential_lt ?_
    have hdistance := @tally_update _ _ _ Worker.distance (fun v ↦ (s.workers v).woken)
      event.worker worker _
    have hwoken : tally Worker.distance (fun v ↦ (s.workers v).woken) =
        tally Worker.distance s.workers := tally_congr fun v ↦ Worker.distance_woken (s.workers v)
    rw [← hworkers, hwoken, Worker.distance_woken] at hdistance
    unfold potential
    rw [hstarted]
    omega
  · refine rank_lt_of_potential_lt ?_
    have hdistance := @tally_update _ _ _ Worker.distance s.workers event.worker (.building id) _
    rw [← hworkers, hidle] at hdistance
    have hbuilding : (Worker.building id).distance = 10 := rfl
    have hlooking : Worker.idle.distance = 2 := rfl
    -- the nodes started are distinct positions below the number of nodes
    have hlength : next.shared.history.started.length ≤ b.graph.count := by
      have hsub : next.shared.history.started ⊆ List.range b.graph.count :=
        fun id hid ↦ List.mem_range.mpr (hvalid.books.started_lt id hid)
      have hle := (hvalid.books.started_nodup.subperm hsub).length_le
      rwa [List.length_range] at hle
    rw [hstarted, List.length_append, List.length_singleton] at hlength
    unfold potential
    rw [hstarted, List.length_append, List.length_singleton]
    omega

/-! ### Some worker can step -/

theorem isSome_step {w : Fin jobs} (hawake : (s.workers w).awake = 1) (input : Input) :
    (b.step s ⟨w, input⟩).isSome := by
  unfold Setup.step
  dsimp only
  revert hawake
  cases s.workers w with
  | waitingWork => exact fun h ↦ by cases h
  | waitingSuccess id => exact fun h ↦ by cases h
  | waitingTurn id => exact fun h ↦ by cases h
  | exited => exact fun h ↦ by cases h
  | idle =>
    intro _
    dsimp only
    split <;> rfl
  | building id =>
    intro _
    dsimp only
    split <;> rfl
  | succeeding id =>
    intro _
    dsimp only
    split <;> rfl
  | evicting id protectedBases pending =>
    intro _
    dsimp only
    split <;> rfl
  | _ => exact fun _ ↦ rfl

/-- As long as some worker has not exited, some worker can step, whatever the world outside does. -/
theorem Valid.exists_step (h : Valid b s) (hleft : ∃ w, s.workers w ≠ .exited) :
    ∃ w, ∀ input, (b.step s ⟨w, input⟩).isSome := by
  by_contra hstuck
  push Not at hstuck
  have hasleep : ∀ w, (s.workers w).awake = 0 := by
    intro w
    by_contra hawake
    obtain ⟨input, hnone⟩ := hstuck w
    have hone : (s.workers w).awake = 1 := by
      have hle := (s.workers w).awake_le_one
      omega
    exact hnone (isSome_step hone input)
  -- the owner of maintenance would not be asleep
  have howner : s.shared.owner = none := by
    rcases howner : s.shared.owner with _ | owner
    · rfl
    · exfalso
      have hline : owner ∈ s.shared.line := by
        rw [Shared.line, howner]
        exact List.mem_cons_self
      obtain ⟨w, hw⟩ := (h.line.holds owner).mp hline
      have hmeans := h.means w
      have hawake := hasleep w
      revert hw hmeans hawake
      cases s.workers w with
      | waitingTurn id =>
        intro hw hmeans _
        exact hmeans (howner.trans hw.symm)
      | turning id => exact fun _ _ h ↦ by cases h
      | maintaining id protectedBases => exact fun _ _ h ↦ by cases h
      | evicting id protectedBases pending => exact fun _ _ h ↦ by cases h
      | finishing id => exact fun _ _ h ↦ by cases h
      | _ => exact fun h ↦ by cases h
  -- so the workers that are left all wait for work, and none holds a node
  have hplaces : ∀ w, s.workers w = .waitingWork ∨ s.workers w = .exited := by
    intro w
    have hmeans := h.means w
    have hawake := hasleep w
    cases hw : s.workers w with
    | waitingWork => exact .inl rfl
    | exited => exact .inr rfl
    | waitingSuccess id =>
      rw [hw] at hmeans
      exact absurd howner hmeans
    | waitingTurn id =>
      have hline : id ∈ s.shared.line := (h.line.holds id).mpr ⟨w, by rw [hw]; rfl⟩
      rw [Shared.line, howner, h.queue howner] at hline
      cases hline
    | _ =>
      rw [hw] at hawake
      cases hawake
  have hactive : s.shared.activeIds = ∅ := by
    refine Finset.eq_empty_of_forall_notMem fun id hid ↦ ?_
    obtain ⟨w, hw⟩ := (h.active.holds id).mp hid
    rcases hplaces w with hwait | hexited
    · rw [hwait] at hw
      cases hw
    · rw [hexited] at hw
      cases hw
  obtain ⟨w, hw⟩ := hleft
  have hmeans := h.means w
  rw [(hplaces w).resolve_right hw] at hmeans
  obtain ⟨hfailure, hstopped, hnot | ⟨hnone, hundone⟩⟩ := hmeans
  · exact hnot howner
  · have hrunning : s.shared.running = 0 := by
      rw [h.books.running, hactive]
      rfl
    have hsome := h.books.popReady_isSome hfailure hstopped hactive fun hdone ↦ hundone ⟨hdone, hrunning⟩
    rw [hnone] at hsome
    cases hsome

/-! ### Whole runs -/

theorem Valid.onward (h : Valid b s) (hnext : b.step s event = some next) :
    Onward s.shared next.shared := by
  rcases h.effect hnext with ⟨_, _, _, honward, _⟩ | ⟨_, _, _, honward, _⟩ | ⟨_, _, _, _, _, honward, _⟩
  · exact honward
  · exact honward
  · exact honward

/-- A node is started only in a step of an idle worker, while nothing halts the build and nobody owns
maintenance. -/
theorem Valid.started_eq (h : Valid b s) (hnext : b.step s event = some next)
    (hclosed : s.shared.Halted ∨ s.shared.owner ≠ none) :
    next.shared.history.started = s.shared.history.started := by
  rcases h.effect hnext with ⟨_, _, hstarted, _, _⟩ | ⟨_, _, hstarted, _, _⟩ |
    ⟨_, _, _, _, _, _, hfailure, hstopped, howner⟩
  · exact hstarted
  · exact hstarted
  · rcases hclosed with (hfailed | hstop) | howned
    · exact absurd hfailure hfailed
    · rw [hstopped] at hstop
      cases hstop
    · exact absurd howner howned

/-- Once the build is halted, no run starts another node. -/
theorem started_eq_of_halted {events : List (Event jobs)} : ∀ {s last : State jobs},
    (b.machine jobs).Reachable s → s.shared.Halted →
      (b.machine jobs).run s events = some last →
        last.shared.history.started = s.shared.history.started := by
  induction events with
  | nil =>
    intro s last _ _ hrun
    rw [← Option.some.inj hrun]
  | cons event rest ih =>
    intro s last hs hhalted hrun
    obtain ⟨next, hnext, hrest⟩ := Option.bind_eq_some_iff.mp hrun
    have hvalid := valid_of_reachable hs
    rw [ih (hs.step event hnext) ((hvalid.onward hnext).halted hhalted) hrest]
    exact hvalid.started_eq hnext (.inl hhalted)

/-- In a stuck state all workers have exited. -/
theorem Valid.exited_of_stuck (h : Valid b s) (hstuck : (b.machine jobs).Stuck s) (w : Fin jobs) :
    s.workers w = .exited := by
  by_contra hw
  obtain ⟨v, hv⟩ := h.exists_step ⟨w, hw⟩
  have hsome := hv ⟨.inspected, ⟨⟨[], 0⟩, 0, fun _ ↦ false⟩, false⟩
  have hnone : b.step s ⟨v, ⟨.inspected, ⟨⟨[], 0⟩, 0, fun _ ↦ false⟩, false⟩⟩ = none := hstuck _
  rw [hnone] at hsome
  cases hsome

/-- Complete runs end: from some moment on all workers have exited. -/
theorem exists_exited {states : ℕ → State jobs} (hrun : (b.machine jobs).Complete states) (k : ℕ) :
    ∃ j, k ≤ j ∧ ∀ w, (states j).workers w = .exited := by
  obtain ⟨j, hj, hstuck⟩ := hrun.exists_stuck (rank b)
    (fun _ _ _ hs hnext ↦ (valid_of_reachable hs).rank_lt hnext) k
  exact ⟨j, hj, (valid_of_reachable (hrun.reachable j)).exited_of_stuck hstuck⟩

/-- Who queued stays on record. -/
theorem queued_stays {states : ℕ → State jobs} (hrun : (b.machine jobs).Complete states) {k j : ℕ}
    (hkj : k ≤ j) : (states k).shared.history.queued <+: (states j).shared.history.queued := by
  induction j, hkj using Nat.le_induction with
  | base => exact List.prefix_rfl
  | succ j _ ih =>
    rcases hrun.next j with ⟨event, hnext⟩ | ⟨-, hsame⟩
    · exact ih.trans ((valid_of_reachable (hrun.reachable j)).onward hnext).queued
    · rwa [hsame]

/-- When all workers have exited nobody owns maintenance or waits for it. -/
theorem Valid.granted_of_exited (h : Valid b s) (hexited : ∀ w, s.workers w = .exited) :
    s.shared.history.queued = s.shared.history.granted := by
  have hqueue : s.shared.queue = [] := by
    refine List.eq_nil_iff_forall_not_mem.mpr fun id hid ↦ ?_
    obtain ⟨w, hw⟩ := (h.line.holds id).mp (List.mem_append_right _ hid)
    rw [hexited w] at hw
    cases hw
  rw [h.fifo, hqueue, List.append_nil]

/-- When all workers have exited a build that nothing halted, every node was started and succeeded. -/
theorem Valid.all_built (h : Valid b s) (hjobs : 0 < jobs) (hexited : ∀ w, s.workers w = .exited)
    (hfailure : s.shared.failure = none) (hstopped : s.shared.stopped = false)
    (hid : id < b.graph.count) :
    s.shared.history.started.count id = 1 ∧ id ∈ s.shared.history.succeeded := by
  have hmeans := h.means ⟨0, hjobs⟩
  rw [hexited] at hmeans
  obtain ⟨hsame, hcompleted⟩ := h.books.clean hfailure hstopped
  have hcount : b.graph.count ≤ s.shared.history.ended.length := by
    rcases hmeans with hfailed | hstop | hle
    · exact absurd hfailure hfailed
    · rw [hstopped] at hstop
      cases hstop
    · rw [hcompleted] at hle
      exact Int.ofNat_le.mp hle
  -- as many distinct positions as there are nodes are all of them
  have hsub : s.shared.history.ended ⊆ List.range b.graph.count :=
    fun id hid ↦ List.mem_range.mpr (h.books.started_lt id (h.books.ended_subset id hid))
  have hperm := (h.books.ended_nodup.subperm hsub).perm_of_length_le
    (by rw [List.length_range]; exact hcount)
  have hended : id ∈ s.shared.history.ended := hperm.mem_iff.mpr (List.mem_range.mpr hid)
  exact ⟨List.count_eq_one_of_mem h.books.started_nodup (h.books.ended_subset id hended), hsame ▸ hended⟩

end Holbuild.ParallelBuild
