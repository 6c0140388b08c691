import Holbuild.Library.Crews
import Holbuild.Library.Pools
import Holbuild.ParallelBuild.Books

/-!
# Where workers are, and what that says

`Worker.Means` is what the place of a worker says about the shared state: what a waiting worker waits
for, that the worker at a maintenance pass owns it and protects the families of all active nodes, and
that a worker that left had a reason. `Valid` adds which nodes the workers hold and in which order they
wait for maintenance. Every step keeps it (`valid_of_reachable`).
-/

set_option autoImplicit false
set_option relaxedAutoImplicit false

namespace Holbuild.ParallelBuild

open Library

/-- The node a worker holds. -/
def Worker.node? : Worker → Option ℕ
  | .idle => none
  | .waitingWork => none
  | .building id => some id
  | .succeeding id => some id
  | .waitingSuccess id => some id
  | .requesting id => some id
  | .waitingTurn id => some id
  | .turning id => some id
  | .maintaining id _ => some id
  | .evicting id _ _ => some id
  | .finishing id => some id
  | .inspecting id => some id
  | .raised id _ => some id
  | .cancelling id => some id
  | .failing id _ => some id
  | .exiting => none
  | .exited => none

/-- The node a worker has queued for maintenance. -/
def Worker.queued? : Worker → Option ℕ
  | .waitingTurn id => some id
  | .turning id => some id
  | .maintaining id _ => some id
  | .evicting id _ _ => some id
  | .finishing id => some id
  | _ => none

/-- One as long as the worker has not exited. -/
def Worker.present : Worker → ℕ
  | .exited => 0
  | _ => 1

@[simp] theorem Worker.node?_woken (worker : Worker) : worker.woken.node? = worker.node? := by
  cases worker <;> rfl

@[simp] theorem Worker.queued?_woken (worker : Worker) : worker.woken.queued? = worker.queued? := by
  cases worker <;> rfl

@[simp] theorem Worker.present_woken (worker : Worker) : worker.woken.present = worker.present := by
  cases worker <;> rfl

/-- The owner of maintenance and the nodes queued behind it. -/
def Shared.line (s : Shared) : List ℕ := s.owner.toList ++ s.queue

/-- What the place of a worker says about the shared state. -/
def Worker.Means (b : Setup) (s : Shared) : Worker → Prop
  | .waitingWork => s.failure = none ∧ s.stopped = false ∧ (s.owner ≠ none ∨
      (b.popReady s).1 = none ∧ ¬ (s.completed = b.graph.count ∧ s.running = 0))
  | .waitingSuccess _ => s.owner ≠ none
  | .waitingTurn id => s.owner ≠ some id
  | .maintaining id protectedBases =>
    s.owner = some id ∧ ∀ other ∈ s.activeIds, b.base other ∈ protectedBases
  | .evicting id protectedBases pending =>
    s.owner = some id ∧ (∀ other ∈ s.activeIds, b.base other ∈ protectedBases) ∧
      ∀ base ∈ pending, base ∉ protectedBases
  | .finishing id => s.owner = some id
  | .cancelling _ => s.stopped = true
  | .exiting => s.failure ≠ none ∨ s.stopped = true ∨ (b.graph.count : ℤ) ≤ s.completed
  | .exited => s.failure ≠ none ∨ s.stopped = true ∨ (b.graph.count : ℤ) ≤ s.completed
  | _ => True

variable {b : Setup} {jobs : ℕ} {s s' : Shared} {id : ℕ} {worker : Worker}

/-! ### What the others' places still say -/

/-- What no section takes back: a failure, a stop and completions, and it adds no active node. -/
structure Later (s s' : Shared) : Prop where
  failure : s.failure ≠ none → s'.failure ≠ none
  stopped : s.stopped = true → s'.stopped = true
  completed : s.completed ≤ s'.completed
  active : s'.activeIds ⊆ s.activeIds

/-- Assumes: the owner of maintenance stays, or is the one whose node another worker holds. A worker
that was woken is where its place says. -/
theorem Worker.Means.woken (h : worker.Means b s) (hlater : Later s s')
    (howner : s'.owner = s.owner ∨ worker.node? ≠ s.owner) : worker.woken.Means b s' := by
  have hsame : ∀ {owner : ℕ}, s.owner = some owner → worker.node? = some owner →
      s'.owner = some owner := by
    intro owner hs hnode
    rcases howner with heq | hne
    · exact heq.trans hs
    · exact absurd (hnode.trans hs.symm) hne
  have hleft : (s.failure ≠ none ∨ s.stopped = true ∨ (b.graph.count : ℤ) ≤ s.completed) →
      s'.failure ≠ none ∨ s'.stopped = true ∨ (b.graph.count : ℤ) ≤ s'.completed := by
    rintro (hfailure | hstopped | hcompleted)
    · exact .inl (hlater.failure hfailure)
    · exact .inr (.inl (hlater.stopped hstopped))
    · exact .inr (.inr (hcompleted.trans hlater.completed))
  cases worker with
  | maintaining owner protectedBases =>
    exact ⟨hsame h.1 rfl, fun other hother ↦ h.2 other (hlater.active hother)⟩
  | evicting owner protectedBases pending =>
    exact ⟨hsame h.1 rfl, fun other hother ↦ h.2.1 other (hlater.active hother), h.2.2⟩
  | finishing owner => exact hsame h rfl
  | cancelling owner => exact hlater.stopped h
  | exiting => exact hleft h
  | exited => exact hleft h
  | _ => trivial

/-- Finding no node to take. -/
theorem Worker.Means.of_mode (h : worker.Means b s) (hmode : s.priorityMode = false → s.focusRemaining ≤ 0)
    (hpop : b.popReady s = (none, s')) : worker.Means b s' := by
  obtain ⟨mode, rfl, -, hagain⟩ := popReady_eq_none hmode hpop
  cases worker with
  | waitingWork =>
    obtain ⟨hfailure, hstopped, howner | ⟨-, hleft⟩⟩ := h
    · exact ⟨hfailure, hstopped, .inl howner⟩
    · exact ⟨hfailure, hstopped, .inr ⟨by rw [hagain], hleft⟩⟩
  | _ => exact h

/-- Starting a node: nobody waits for work then, and no pass is under way. -/
theorem Worker.Means.start (h : worker.Means b s) (howner : s.owner = none) {priority : Bool}
    (hpop : b.popReady s = (some (id, priority), s')) (hpopped : Popped b s id priority s') :
    worker.Means b (startNode s' id priority) := by
  obtain ⟨-, front, back, mode, -, rfl, -⟩ := hpopped
  cases worker with
  | waitingWork =>
    obtain ⟨-, -, hnot | ⟨hnone, -⟩⟩ := h
    · exact absurd howner hnot
    · rw [hpop] at hnone
      cases hnone
  | maintaining owner protectedBases => exact absurd (h.1.symm.trans howner) (by simp)
  | evicting owner protectedBases pending => exact absurd (h.1.symm.trans howner) (by simp)
  | _ => exact h

/-- Another node queues for maintenance. -/
theorem Worker.Means.enqueue (h : worker.Means b s) (hnode : worker.node? ≠ some id) :
    worker.Means b (enqueueCheckpointMaintenanceLocked s id) := by
  unfold enqueueCheckpointMaintenanceLocked
  dsimp only
  split
  · rename_i howner
    cases worker with
    | waitingWork => exact ⟨h.1, h.2.1, .inl (by simp)⟩
    | waitingSuccess other => exact fun h ↦ by cases h
    | waitingTurn other => exact fun heq ↦ hnode heq.symm
    | maintaining owner protectedBases => exact absurd (h.1.symm.trans howner) (by simp)
    | evicting owner protectedBases pending => exact absurd (h.1.symm.trans howner) (by simp)
    | finishing owner => exact absurd (h.symm.trans howner) (by simp)
    | _ => exact h
  · rename_i owner howner
    cases worker with
    | waitingWork => exact ⟨h.1, h.2.1, .inl (by simp [howner])⟩
    | _ => exact h

/-! ### Valid states -/

structure Valid (b : Setup) (s : State jobs) : Prop where
  books : Books b s.shared
  active : Held (fun w ↦ (s.workers w).node?) (· ∈ s.shared.activeIds)
  line : Held (fun w ↦ (s.workers w).queued?) (· ∈ s.shared.line)
  line_nodup : s.shared.line.Nodup
  queue : s.shared.owner = none → s.shared.queue = []
  fifo : s.shared.history.queued = s.shared.history.granted ++ s.shared.queue
  last : ∀ id, s.shared.owner = some id → s.shared.history.granted.getLast? = some id
  present : s.shared.active = tally Worker.present s.workers
  means : ∀ w, (s.workers w).Means b s.shared

theorem valid_initial : Valid b (b.machine jobs).initial where
  books := books_initial jobs
  active := ⟨fun id ↦ ⟨fun h ↦ absurd h (Finset.notMem_empty id), fun ⟨_, h⟩ ↦ by cases h⟩,
    fun _ _ _ h _ ↦ by cases h⟩
  line := ⟨fun id ↦ ⟨fun h ↦ absurd h List.not_mem_nil, fun ⟨_, h⟩ ↦ by cases h⟩,
    fun _ _ _ h _ ↦ by cases h⟩
  line_nodup := List.nodup_nil
  queue _ := rfl
  fifo := rfl
  last _ h := by cases h
  present := by
    show (jobs : ℤ) = tally Worker.present fun _ : Fin jobs ↦ Worker.idle
    simp [tally, Worker.present]
  means _ := trivial

variable {s : State jobs} {w : Fin jobs} {shared : Shared}

/-- What the workers hold after one of them went elsewhere. -/
theorem update_place {α : Type*} (place : Worker → α) (workers : Fin jobs → Worker) :
    (fun v ↦ place (Function.update workers w worker v)) =
      Function.update (fun v ↦ place (workers v)) w (place worker) := by
  ext v
  by_cases hv : v = w
  · subst hv
    simp
  · simp [hv]

theorem update_place_of_eq {α : Type*} (place : Worker → α) {workers : Fin jobs → Worker}
    (hplace : place worker = place (workers w)) :
    (fun v ↦ place (Function.update workers w worker v)) = fun v ↦ place (workers v) := by
  rw [update_place, hplace]
  exact Function.update_eq_self w _

/-- The number of workers left after one that is there went elsewhere. -/
theorem present_update {workers : Fin jobs → Worker} (hpresent : worker.present = (workers w).present) :
    tally Worker.present (Function.update workers w worker) = tally Worker.present workers := by
  have h := @tally_update _ _ _ Worker.present workers w worker _
  omega

/-- A worker's place after a step of its own, and the others' after a section that woke them. -/
theorem forall_update {P : Worker → Prop} {workers : Fin jobs → Worker} (hw : P worker)
    (hother : ∀ v, v ≠ w → P (workers v)) (v : Fin jobs) : P (Function.update workers w worker v) := by
  by_cases hv : v = w
  · subst hv
    rwa [Function.update_self]
  · rw [Function.update_of_ne hv]
    exact hother v hv

namespace Valid

/-- A step that changes the mode at most, and neither the node the worker holds nor its turn. -/
theorem go (h : Valid b s) (mode : Bool) (hmode : mode = false → s.shared.focusRemaining ≤ 0)
    (hnode : worker.node? = (s.workers w).node?) (hqueued : worker.queued? = (s.workers w).queued?)
    (hpresent : worker.present = (s.workers w).present)
    (hothers : ∀ v, (s.workers v).Means b { s.shared with priorityMode := mode })
    (hmeans : worker.Means b { s.shared with priorityMode := mode }) :
    Valid b (s.unlock w { s.shared with priorityMode := mode } worker) where
  books := h.books.of_mode hmode
  active := by
    rw [State.unlock, update_place_of_eq Worker.node? hnode]
    exact h.active
  line := by
    rw [State.unlock, update_place_of_eq Worker.queued? hqueued]
    exact h.line
  line_nodup := h.line_nodup
  queue := h.queue
  fifo := h.fifo
  last := h.last
  present := by
    show s.shared.active = tally Worker.present (Function.update s.workers w worker)
    rw [present_update hpresent]
    exact h.present
  means := forall_update hmeans fun v _ ↦ hothers v

theorem goto (h : Valid b s) (hnode : worker.node? = (s.workers w).node?)
    (hqueued : worker.queued? = (s.workers w).queued?)
    (hpresent : worker.present = (s.workers w).present) (hmeans : worker.Means b s.shared) :
    Valid b (s.goto w worker) :=
  h.go s.shared.priorityMode h.books.mode hnode hqueued hpresent h.means hmeans

/-- Starting a node: the worker holds it from now on. -/
theorem start (h : Valid b s) (hw : s.workers w = .idle) (hstopped : s.shared.stopped = false)
    (howner : s.shared.owner = none) {priority : Bool}
    (hpop : b.popReady s.shared = (some (id, priority), shared)) :
    Valid b (s.unlock w (startNode shared id priority) (.building id)) := by
  have hpopped : Popped b s.shared id priority shared :=
    popped_of_popReady (h.books.ready hstopped).priorityReady h.books.mode hpop
  have hbooks := h.books.start hstopped hpopped
  have hnew := (h.books.popped hstopped hpopped).2.1
  have hmeans : ∀ v, (s.workers v).Means b (startNode shared id priority) :=
    fun v ↦ (h.means v).start howner hpop hpopped
  obtain ⟨-, front, back, mode, -, rfl, -⟩ := hpopped
  have hnode : (s.workers w).node? = none := by
    rw [hw]
    rfl
  constructor
  · exact hbooks
  · rw [State.unlock, update_place Worker.node?]
    refine h.active.take hnode (fun hid ↦ hnew ((h.books.active_iff id).mp hid).1) fun other ↦ ?_
    show other ∈ insert id s.shared.activeIds ↔ _
    rw [Finset.mem_insert]
  · rw [State.unlock, update_place_of_eq Worker.queued? (by rw [hw]; rfl)]
    exact h.line
  · exact h.line_nodup
  · exact h.queue
  · exact h.fifo
  · exact h.last
  · show s.shared.active = tally Worker.present (Function.update s.workers w (.building id))
    rw [present_update (by rw [hw]; rfl)]
    exact h.present
  · exact forall_update trivial fun v _ ↦ hmeans v

/-! ### Maintenance -/

theorem base_mem_protectedBasesForIds {shared : Shared} {other : ℕ} (hother : other ∈ shared.activeIds) :
    b.base other ∈ b.protectedBasesForIds shared :=
  List.mem_dedup.mpr (List.mem_map_of_mem ((Finset.mem_sort _).mpr hother))

/-- Queueing puts a node last in the line, and leaves what is not about maintenance. -/
theorem enqueued {shared : Shared} (id : ℕ) (hqueue : shared.owner = none → shared.queue = [])
    (hfifo : shared.history.queued = shared.history.granted ++ shared.queue)
    (hlast : ∀ id, shared.owner = some id → shared.history.granted.getLast? = some id) :
    let shared' := enqueueCheckpointMaintenanceLocked shared id
    shared'.activeIds = shared.activeIds ∧ shared'.active = shared.active ∧
      shared'.line = shared.line ++ [id] ∧ shared'.owner ≠ none ∧
      shared'.history.queued = shared'.history.granted ++ shared'.queue ∧
      ∀ id, shared'.owner = some id → shared'.history.granted.getLast? = some id := by
  unfold enqueueCheckpointMaintenanceLocked
  dsimp only
  split
  · rename_i howner
    refine ⟨rfl, rfl, ?_, by simp, ?_, fun other hother ↦ ?_⟩
    · simp [Shared.line, howner, hqueue howner]
    · simp [hfifo, hqueue howner]
    · rw [List.getLast?_concat]
      exact hother
  · rename_i owner howner
    refine ⟨rfl, rfl, ?_, by simp [howner], ?_, hlast⟩
    · simp [Shared.line]
    · simp [hfifo]

/-- The worker of a queued node takes its turn, or waits for it. -/
theorem turn (h : Valid b s) (hw : s.workers w = .turning id) :
    Valid b (b.waitForTurn s w s.shared id) := by
  have hline : id ∈ s.shared.line := (h.line.holds id).mpr ⟨w, by rw [hw]; rfl⟩
  unfold Setup.waitForTurn
  split
  · rename_i owner howner
    split
    · rename_i heq
      subst heq
      exact h.goto (by rw [hw]; rfl) (by rw [hw]; rfl) (by rw [hw]; rfl)
        ⟨howner, fun other hother ↦ base_mem_protectedBasesForIds hother⟩
    · rename_i hne
      refine h.goto (by rw [hw]; rfl) (by rw [hw]; rfl) (by rw [hw]; rfl) fun heq ↦ hne ?_
      exact Option.some.inj (howner.symm.trans heq)
  · rename_i howner
    rw [Shared.line, howner, h.queue howner] at hline
    cases hline

/-- A node queues for maintenance, and takes its turn at once when nobody is ahead. -/
theorem enqueue (h : Valid b s) (hw : s.workers w = .requesting id) :
    Valid b (b.waitForTurn s w (enqueueCheckpointMaintenanceLocked s.shared id) id) := by
  have hnode : (s.workers w).node? = some id := by
    rw [hw]
    rfl
  have hqueued : (s.workers w).queued? = none := by
    rw [hw]
    rfl
  have hactive : id ∈ s.shared.activeIds := (h.active.holds id).mpr ⟨w, hnode⟩
  -- the others hold other nodes, so this one is not in the line yet
  have hothers : ∀ v, v ≠ w → (s.workers v).node? ≠ some id :=
    fun v hv hid ↦ hv (h.active.alone v w id hid hnode)
  have hline : id ∉ s.shared.line := by
    intro hid
    obtain ⟨v, hv⟩ := (h.line.holds id).mp hid
    have hvnode : (s.workers v).node? = some id := by
      revert hv
      cases s.workers v <;> exact fun hv ↦ by first | exact hv | cases hv
    obtain rfl := h.active.alone v w id hvnode hnode
    rw [hqueued] at hv
    cases hv
  have hbooks : Books b (enqueueCheckpointMaintenanceLocked s.shared id) := by
    unfold enqueueCheckpointMaintenanceLocked
    dsimp only
    split
    · exact h.books.of_maintenance ..
    · exact h.books.of_maintenance ..
  have hmeans : ∀ v, v ≠ w →
      (s.workers v).Means b (enqueueCheckpointMaintenanceLocked s.shared id) :=
    fun v hv ↦ (h.means v).enqueue (hothers v hv)
  have hplaces : ∀ worker : Worker, worker.node? = some id → worker.queued? = some id →
      worker.present = 1 →
      worker.Means b (enqueueCheckpointMaintenanceLocked s.shared id) →
      Valid b (s.unlock w (enqueueCheckpointMaintenanceLocked s.shared id) worker) := by
    intro worker hwnode hwqueued hwpresent hwmeans
    obtain ⟨hactiveIds, hcount, hlines, howner, hfifo, hlast⟩ := enqueued id h.queue h.fifo h.last
    constructor
    · exact hbooks
    · rw [State.unlock, update_place_of_eq Worker.node? (hwnode.trans hnode.symm)]
      dsimp only
      rw [hactiveIds]
      exact h.active
    · rw [State.unlock, update_place Worker.queued?, hwqueued]
      dsimp only
      rw [hlines]
      refine h.line.take hqueued hline fun other ↦ ?_
      rw [List.mem_append, List.mem_singleton, or_comm]
    · show (enqueueCheckpointMaintenanceLocked s.shared id).line.Nodup
      rw [hlines]
      exact h.line_nodup.append (List.nodup_singleton id) (List.disjoint_singleton.mpr hline)
    · exact fun hnone ↦ absurd hnone howner
    · exact hfifo
    · exact hlast
    · show (enqueueCheckpointMaintenanceLocked s.shared id).active =
        tally Worker.present (Function.update s.workers w worker)
      rw [hcount, present_update (by rw [hwpresent, hw]; rfl)]
      exact h.present
    · exact forall_update hwmeans hmeans
  unfold Setup.waitForTurn
  split
  · rename_i owner howner
    split
    · rename_i heq
      subst heq
      exact hplaces _ rfl rfl rfl
        ⟨howner, fun other hother ↦ base_mem_protectedBasesForIds hother⟩
    · rename_i hne
      exact hplaces _ rfl rfl rfl fun heq ↦ hne (Option.some.inj (howner.symm.trans heq))
  · rename_i howner
    exact absurd howner (enqueued id h.queue h.fifo h.last).2.2.2.1

end Valid

/-! ### Finishing a node -/

/-- The shared state after a node ended, whatever its end. -/
structure Closes (b : Setup) (s : Shared) (id : ℕ) (s' : Shared) : Prop where
  books : Books b s'
  activeIds : s'.activeIds = s.activeIds.erase id
  owner : s'.owner = s.owner
  queue : s'.queue = s.queue
  active : s'.active = s.active
  started : s'.history.started = s.history.started
  queued : s'.history.queued = s.history.queued
  granted : s'.history.granted = s.history.granted
  failure : s.failure ≠ none → s'.failure ≠ none
  stopped : s.stopped = true → s'.stopped = true
  completed : s.completed ≤ s'.completed

theorem Closes.later {s s' : Shared} (h : Closes b s id s') : Later s s' :=
  ⟨h.failure, h.stopped, h.completed, h.activeIds ▸ Finset.erase_subset id s.activeIds⟩

theorem closes_finishSuccess {s : Shared} (h : Books b s) (hid : id ∈ s.activeIds) :
    Closes b s id (b.finishSuccessTransitionLocked s id) := by
  have hbooks := h.finishSuccess hid
  unfold Setup.finishSuccessTransitionLocked at *
  dsimp only at *
  split at hbooks <;> rename_i hstopped
  · rw [if_pos hstopped]
    exact ⟨hbooks, rfl, rfl, rfl, rfl, rfl, rfl, rfl, fun h ↦ h, fun h ↦ h, Int.le_of_lt (Int.lt_succ _)⟩
  · rw [if_neg hstopped]
    exact ⟨hbooks, rfl, rfl, rfl, rfl, rfl, rfl, rfl, fun h ↦ h, fun h ↦ h, Int.le_of_lt (Int.lt_succ _)⟩

theorem closes_finishInspected {s : Shared} (h : Books b s) (hid : id ∈ s.activeIds) :
    Closes b s id (b.finishInspectedLocked s id) :=
  ⟨h.finishInspected hid, rfl, rfl, rfl, rfl, rfl, rfl, rfl, fun h ↦ h, fun _ ↦ rfl,
    Int.le_of_lt (Int.lt_succ _)⟩

theorem closes_cancelled {s : Shared} (h : Books b s) (hid : id ∈ s.activeIds)
    (hstopped : s.stopped = true) : Closes b s id (b.closeNode s id) :=
  ⟨h.close hid hstopped, rfl, rfl, rfl, rfl, rfl, rfl, rfl, fun h ↦ h, fun h ↦ h, le_refl _⟩

theorem closes_finishFailure {s : Shared} (h : Books b s) (hid : id ∈ s.activeIds) (message : Text) :
    Closes b s id (b.finishFailureLocked s id message) ∧
      ((b.finishFailureLocked s id message).failure ≠ none ∨
        (b.finishFailureLocked s id message).stopped = true) := by
  have hbooks := h.finishFailure hid message
  unfold Setup.finishFailureLocked at *
  dsimp only at *
  by_cases hstopped : (b.closeNode s id).stopped = true
  · rw [if_pos hstopped] at hbooks ⊢
    exact ⟨⟨hbooks, rfl, rfl, rfl, rfl, rfl, rfl, rfl, fun h ↦ h, fun h ↦ h, le_refl _⟩, .inr hstopped⟩
  · rw [if_neg hstopped] at hbooks ⊢
    split at hbooks
    · rename_i hfailure
      exact ⟨⟨hbooks, rfl, rfl, rfl, rfl, rfl, rfl, rfl, fun h ↦ h, fun h ↦ h, le_refl _⟩,
        .inl (by simp [hfailure])⟩
    · exact ⟨⟨hbooks, rfl, rfl, rfl, rfl, rfl, rfl, rfl, fun _ ↦ by simp, fun h ↦ h, le_refl _⟩,
        .inl (by simp)⟩

namespace Valid

/-- What the workers hold after a broadcast is what they held before. -/
theorem update_woken {α : Type*} (place : Worker → α) (hplace : ∀ worker : Worker,
    place worker.woken = place worker) (workers : Fin jobs → Worker) :
    (fun v ↦ place (Function.update (fun v ↦ (workers v).woken) w worker v)) =
      Function.update (fun v ↦ place (workers v)) w (place worker) := by
  rw [update_place place]
  simp only [hplace]

theorem present_woken (workers : Fin jobs → Worker) :
    tally Worker.present (fun v ↦ (workers v).woken) = tally Worker.present workers :=
  tally_congr fun v ↦ Worker.present_woken (workers v)

/-- A node ends outside maintenance, and its worker looks for work or leaves. -/
theorem finish (h : Valid b s) (hnode : (s.workers w).node? = some id)
    (hqueued : (s.workers w).queued? = none) (hpresent : (s.workers w).present = 1)
    (hcloses : Closes b s.shared id shared) (hworker : worker = .idle ∨ worker = .exiting)
    (hmeans : worker.Means b shared) : Valid b (s.signal w shared worker) := by
  have hwnode : worker.node? = none := by rcases hworker with rfl | rfl <;> rfl
  have hwqueued : worker.queued? = none := by rcases hworker with rfl | rfl <;> rfl
  have hwpresent : worker.present = 1 := by rcases hworker with rfl | rfl <;> rfl
  constructor
  · exact hcloses.books
  · rw [State.signal, update_woken Worker.node? Worker.node?_woken, hwnode]
    refine h.active.drop hnode fun other ↦ ?_
    dsimp only
    rw [hcloses.activeIds, Finset.mem_erase]
  · rw [State.signal, update_woken Worker.queued? Worker.queued?_woken, hwqueued, ← hqueued]
    rw [Function.update_eq_self w fun v ↦ (s.workers v).queued?]
    dsimp only [Shared.line]
    rw [hcloses.owner, hcloses.queue]
    exact h.line
  · show shared.line.Nodup
    rw [Shared.line, hcloses.owner, hcloses.queue]
    exact h.line_nodup
  · show shared.owner = none → shared.queue = []
    rw [hcloses.owner, hcloses.queue]
    exact h.queue
  · show shared.history.queued = shared.history.granted ++ shared.queue
    rw [hcloses.queued, hcloses.granted, hcloses.queue]
    exact h.fifo
  · show ∀ id, shared.owner = some id → shared.history.granted.getLast? = some id
    rw [hcloses.owner, hcloses.granted]
    exact h.last
  · show shared.active = tally Worker.present (Function.update (fun v ↦ (s.workers v).woken) w worker)
    rw [hcloses.active, present_update (by rw [hwpresent, Worker.present_woken, hpresent]),
      present_woken]
    exact h.present
  · exact forall_update hmeans fun v _ ↦ (h.means v).woken hcloses.later (.inl hcloses.owner)

/-- A node ends with its maintenance pass, and the next one in the queue takes over. -/
theorem finishMaintenance (h : Valid b s) (hw : s.workers w = .finishing id) :
    Valid b (b.finishCheckpointMaintenance s w id) := by
  have hnode : (s.workers w).node? = some id := by
    rw [hw]
    rfl
  have hqueued : (s.workers w).queued? = some id := by
    rw [hw]
    rfl
  have howner : s.shared.owner = some id := by
    have hmeans := h.means w
    rw [hw] at hmeans
    exact hmeans
  have hcloses := closes_finishSuccess h.books ((h.active.holds id).mpr ⟨w, hnode⟩)
  unfold Setup.finishCheckpointMaintenance
  generalize b.finishSuccessTransitionLocked s.shared id = shared at hcloses
  dsimp only
  rw [hcloses.owner, howner]
  dsimp only
  rw [if_pos rfl]
  have hnodup := h.line_nodup
  rw [Shared.line, howner] at hnodup
  obtain ⟨hidqueue, hqueueNodup⟩ := List.nodup_cons.mp hnodup
  have hadvance : (advanceCheckpointMaintenanceLocked shared).line = s.shared.queue ∧
      ((advanceCheckpointMaintenanceLocked shared).owner = none →
        (advanceCheckpointMaintenanceLocked shared).queue = []) ∧
      (advanceCheckpointMaintenanceLocked shared).history.queued =
        (advanceCheckpointMaintenanceLocked shared).history.granted ++
          (advanceCheckpointMaintenanceLocked shared).queue ∧
      ∀ id, (advanceCheckpointMaintenanceLocked shared).owner = some id →
        (advanceCheckpointMaintenanceLocked shared).history.granted.getLast? = some id := by
    have hfifo := h.fifo
    rw [← hcloses.queued, ← hcloses.granted, ← hcloses.queue] at hfifo
    rw [← hcloses.queue]
    unfold advanceCheckpointMaintenanceLocked
    split
    · rename_i hnil
      exact ⟨by simp [Shared.line, hnil], fun _ ↦ hnil, hfifo, fun _ h ↦ by cases h⟩
    · rename_i next rest hcons
      refine ⟨by simp [Shared.line, hcons], fun hnone ↦ by simp at hnone, ?_, fun other hother ↦ ?_⟩
      · simp [hfifo, hcons]
      · rw [List.getLast?_concat]
        exact hother
  have hsame : (advanceCheckpointMaintenanceLocked shared).activeIds = shared.activeIds ∧
      (advanceCheckpointMaintenanceLocked shared).active = shared.active ∧
      Later shared (advanceCheckpointMaintenanceLocked shared) ∧
      Books b (advanceCheckpointMaintenanceLocked shared) := by
    unfold advanceCheckpointMaintenanceLocked
    split
    · exact ⟨rfl, rfl, ⟨fun h ↦ h, fun h ↦ h, le_refl _, Finset.Subset.refl _⟩,
        hcloses.books.of_maintenance ..⟩
    · exact ⟨rfl, rfl, ⟨fun h ↦ h, fun h ↦ h, le_refl _, Finset.Subset.refl _⟩,
        hcloses.books.of_maintenance ..⟩
  obtain ⟨hline, hqueue, hfifo, hlast⟩ := hadvance
  obtain ⟨hactiveIds, hcount, hlater, hbooks⟩ := hsame
  have hlater' : Later s.shared (advanceCheckpointMaintenanceLocked shared) :=
    ⟨fun hf ↦ hlater.failure (hcloses.failure hf), fun hs ↦ hlater.stopped (hcloses.stopped hs),
      hcloses.completed.trans hlater.completed, hlater.active.trans hcloses.later.active⟩
  constructor
  · exact hbooks
  · rw [State.signal, update_woken Worker.node? Worker.node?_woken]
    refine h.active.drop hnode fun other ↦ ?_
    dsimp only
    rw [hactiveIds, hcloses.activeIds, Finset.mem_erase]
  · rw [State.signal, update_woken Worker.queued? Worker.queued?_woken]
    refine h.line.drop hqueued fun other ↦ ?_
    dsimp only
    rw [hline, Shared.line, howner]
    show other ∈ s.shared.queue ↔ other ≠ id ∧ other ∈ id :: s.shared.queue
    rw [List.mem_cons]
    constructor
    · exact fun hother ↦ ⟨fun heq ↦ hidqueue (heq ▸ hother), .inr hother⟩
    · exact fun ⟨hne, hother⟩ ↦ hother.resolve_left hne
  · show (advanceCheckpointMaintenanceLocked shared).line.Nodup
    rw [hline]
    exact hqueueNodup
  · exact hqueue
  · exact hfifo
  · exact hlast
  · show (advanceCheckpointMaintenanceLocked shared).active =
      tally Worker.present (Function.update (fun v ↦ (s.workers v).woken) w .idle)
    rw [hcount, hcloses.active, present_update (by rw [Worker.present_woken, hw]; rfl), present_woken]
    exact h.present
  · refine forall_update trivial fun v hv ↦ (h.means v).woken hlater' (.inr fun heq ↦ hv ?_)
    exact h.active.alone v w id (heq.trans howner) hnode

/-- A worker leaves. -/
theorem exit (h : Valid b s) (hw : s.workers w = .exiting) :
    Valid b (s.signal w { s.shared with active := s.shared.active - 1 } .exited) := by
  have hmeans := h.means w
  rw [hw] at hmeans
  constructor
  · exact h.books.of_maintenance ..
  · rw [State.signal, update_woken Worker.node? Worker.node?_woken]
    have hsame : (Worker.exited).node? = (s.workers w).node? := by
      rw [hw]
      rfl
    rw [hsame, Function.update_eq_self w fun v ↦ (s.workers v).node?]
    exact h.active
  · rw [State.signal, update_woken Worker.queued? Worker.queued?_woken]
    have hsame : (Worker.exited).queued? = (s.workers w).queued? := by
      rw [hw]
      rfl
    rw [hsame, Function.update_eq_self w fun v ↦ (s.workers v).queued?]
    exact h.line
  · exact h.line_nodup
  · exact h.queue
  · exact h.fifo
  · exact h.last
  · show s.shared.active - 1 =
      tally Worker.present (Function.update (fun v ↦ (s.workers v).woken) w .exited)
    have htally := @tally_update _ _ _ Worker.present (fun v ↦ (s.workers v).woken) w .exited _
    rw [present_woken] at htally
    have hone : Worker.present (s.workers w).woken = 1 := by
      rw [hw]
      rfl
    have hzero : Worker.present .exited = 0 := rfl
    have hpresent := h.present
    omega
  · refine forall_update hmeans fun v _ ↦ (h.means v).woken ?_ (.inl rfl)
    exact ⟨fun h ↦ h, fun h ↦ h, le_refl _, Finset.Subset.refl _⟩

end Valid

/-- Every step of a worker keeps valid states valid. -/
theorem Valid.step (h : Valid b s) {event : Event jobs} {next : State jobs}
    (hnext : b.step s event = some next) : Valid b next := by
  have hmeans := h.means event.worker
  have hheld : ∀ {id : ℕ}, (s.workers event.worker).node? = some id → id ∈ s.shared.activeIds :=
    fun hnode ↦ (h.active.holds _).mpr ⟨event.worker, hnode⟩
  unfold Setup.step at hnext
  dsimp only at hnext
  cases hw : s.workers event.worker with
  | idle =>
    rw [hw] at hnext
    dsimp only at hnext
    have hunchanged : ∀ worker : Worker, worker.node? = none → worker.queued? = none →
        worker.present = 1 → worker.Means b s.shared →
        Valid b (s.unlock event.worker s.shared worker) := by
      intro worker hnode hqueued hpresent hworker
      exact h.go s.shared.priorityMode h.books.mode (by rw [hw, hnode]; rfl) (by rw [hw, hqueued]; rfl)
        (by rw [hw, hpresent]; rfl) h.means hworker
    unfold Setup.nextWorkLocked at hnext
    by_cases hfailure : s.shared.failure.isSome
    · rw [if_pos hfailure] at hnext
      obtain rfl := Option.some.inj hnext
      exact hunchanged .exiting rfl rfl rfl (.inl (Option.isSome_iff_ne_none.mp hfailure))
    rw [if_neg hfailure] at hnext
    by_cases hstopped : s.shared.stopped = true
    · rw [if_pos hstopped] at hnext
      obtain rfl := Option.some.inj hnext
      exact hunchanged .exiting rfl rfl rfl (.inr (.inl hstopped))
    rw [if_neg hstopped] at hnext
    have hnone : s.shared.failure = none := by simpa using hfailure
    have hrunning : s.shared.stopped = false := by simpa using hstopped
    by_cases howner : s.shared.owner.isSome
    · rw [if_pos howner] at hnext
      obtain rfl := Option.some.inj hnext
      exact hunchanged .waitingWork rfl rfl rfl
        ⟨hnone, hrunning, .inl (Option.isSome_iff_ne_none.mp howner)⟩
    rw [if_neg howner] at hnext
    have hfree : s.shared.owner = none := by simpa using howner
    rcases hpop : b.popReady s.shared with ⟨_ | ⟨id, priority⟩, shared⟩
    · rw [hpop] at hnext
      dsimp only at hnext
      have hothers : ∀ v, (s.workers v).Means b shared :=
        fun v ↦ (h.means v).of_mode h.books.mode hpop
      obtain ⟨mode, rfl, hmode, hagain⟩ := popReady_eq_none h.books.mode hpop
      by_cases hdone : s.shared.completed = b.graph.count ∧ s.shared.running = 0
      · rw [if_pos hdone] at hnext
        obtain rfl := Option.some.inj hnext
        exact h.go mode hmode (by rw [hw]; rfl) (by rw [hw]; rfl) (by rw [hw]; rfl) hothers
          (.inr (.inr (le_of_eq hdone.1.symm)))
      · rw [if_neg hdone] at hnext
        obtain rfl := Option.some.inj hnext
        exact h.go mode hmode (by rw [hw]; rfl) (by rw [hw]; rfl) (by rw [hw]; rfl) hothers
          ⟨hnone, hrunning, .inr ⟨by rw [hagain], hdone⟩⟩
    · rw [hpop] at hnext
      obtain rfl := Option.some.inj hnext
      exact h.start hw hrunning hfree hpop
  | building id =>
    rw [hw] at hnext
    dsimp only at hnext
    split at hnext
    · obtain rfl := Option.some.inj hnext
      split
      · exact h.goto (by rw [hw]; rfl) (by rw [hw]; rfl) (by rw [hw]; rfl) trivial
      · exact h.goto (by rw [hw]; rfl) (by rw [hw]; rfl) (by rw [hw]; rfl) trivial
    · obtain rfl := Option.some.inj hnext
      exact h.goto (by rw [hw]; rfl) (by rw [hw]; rfl) (by rw [hw]; rfl) trivial
    · obtain rfl := Option.some.inj hnext
      exact h.goto (by rw [hw]; rfl) (by rw [hw]; rfl) (by rw [hw]; rfl) trivial
  | succeeding id =>
    rw [hw] at hnext hheld
    dsimp only at hnext
    split at hnext
    · obtain rfl := Option.some.inj hnext
      exact h.finish (by rw [hw]; rfl) (by rw [hw]; rfl) (by rw [hw]; rfl)
        (closes_finishSuccess h.books (hheld rfl)) (.inl rfl) trivial
    · rename_i owner howner
      obtain rfl := Option.some.inj hnext
      exact h.goto (by rw [hw]; rfl) (by rw [hw]; rfl) (by rw [hw]; rfl)
        (Option.isSome_iff_ne_none.mp (by rw [howner]; rfl))
  | requesting id =>
    rw [hw] at hnext
    obtain rfl := Option.some.inj hnext
    exact h.enqueue hw
  | turning id =>
    rw [hw] at hnext
    obtain rfl := Option.some.inj hnext
    exact h.turn hw
  | maintaining id protectedBases =>
    rw [hw] at hnext hmeans
    obtain rfl := Option.some.inj hnext
    exact h.goto (by rw [hw]; rfl) (by rw [hw]; rfl) (by rw [hw]; rfl)
      ⟨hmeans.1, hmeans.2, fun base hbase ↦ notMem_protected_of_attempted hbase⟩
  | evicting id protectedBases pending =>
    rw [hw] at hnext hmeans
    dsimp only at hnext
    split at hnext
    · obtain rfl := Option.some.inj hnext
      exact h.goto (by rw [hw]; rfl) (by rw [hw]; rfl) (by rw [hw]; rfl) hmeans.1
    · obtain rfl := Option.some.inj hnext
      split
      · exact h.goto (by rw [hw]; rfl) (by rw [hw]; rfl) (by rw [hw]; rfl) hmeans.1
      · exact h.goto (by rw [hw]; rfl) (by rw [hw]; rfl) (by rw [hw]; rfl)
          ⟨hmeans.1, hmeans.2.1, fun base hbase ↦ hmeans.2.2 base (List.mem_cons_of_mem _ hbase)⟩
  | finishing id =>
    rw [hw] at hnext
    obtain rfl := Option.some.inj hnext
    exact h.finishMaintenance hw
  | inspecting id =>
    rw [hw] at hnext hheld
    obtain rfl := Option.some.inj hnext
    exact h.finish (by rw [hw]; rfl) (by rw [hw]; rfl) (by rw [hw]; rfl)
      (closes_finishInspected h.books (hheld rfl)) (.inl rfl) trivial
  | raised id message =>
    rw [hw] at hnext
    obtain rfl := Option.some.inj hnext
    split
    · rename_i hstopped
      exact h.goto (by rw [hw]; rfl) (by rw [hw]; rfl) (by rw [hw]; rfl) hstopped
    · exact h.goto (by rw [hw]; rfl) (by rw [hw]; rfl) (by rw [hw]; rfl) trivial
  | cancelling id =>
    rw [hw] at hnext hmeans hheld
    obtain rfl := Option.some.inj hnext
    exact h.finish (by rw [hw]; rfl) (by rw [hw]; rfl) (by rw [hw]; rfl)
      (closes_cancelled h.books (hheld rfl) hmeans) (.inr rfl) (.inr (.inl hmeans))
  | failing id message =>
    rw [hw] at hnext hheld
    obtain rfl := Option.some.inj hnext
    obtain ⟨hcloses, hleft⟩ := closes_finishFailure h.books (hheld rfl) message
    exact h.finish (by rw [hw]; rfl) (by rw [hw]; rfl) (by rw [hw]; rfl) hcloses (.inr rfl)
      (hleft.imp_right .inl)
  | exiting =>
    rw [hw] at hnext
    obtain rfl := Option.some.inj hnext
    exact h.exit hw
  | waitingWork =>
    rw [hw] at hnext
    cases hnext
  | waitingSuccess id =>
    rw [hw] at hnext
    cases hnext
  | waitingTurn id =>
    rw [hw] at hnext
    cases hnext
  | exited =>
    rw [hw] at hnext
    cases hnext

/-- Every reachable state is valid. -/
theorem valid_of_reachable (h : (b.machine jobs).Reachable s) : Valid b s :=
  h.invariant valid_initial fun _ _ _ _ hvalid hnext ↦ hvalid.step hnext

end Holbuild.ParallelBuild
