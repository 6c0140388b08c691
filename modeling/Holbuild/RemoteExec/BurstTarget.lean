import Holbuild.Library.Machine
import Holbuild.Library.Staffing
import Holbuild.RemoteExec.Tables
import Mathlib.Data.Finset.Max
import Mathlib.Order.Bounds.Basic

/-!
# The target for burst workers

`burst_demand` over the counts of `Coordinator.queue`, and the samples of the demand that the sweeps of all
replicas keep in the table `burst_demand`, from which each reads the target for the scale command.

First the demand: it is the least number of burst workers with which any admissible choice of the ready and
running actions can be worked on at once (`burstDemand_eq`).

Then the samples. A sweep counts, reads its clock, and in one READ COMMITTED transaction deletes what is older
than the hold, inserts its own sample and selects the target. Each of these is one step (`step`), and those of
other replicas, and time, may come between any two of them. A statement that would delete a row that another open
transaction has deleted waits for it (`Cluster.locked`). A sweep may stop at any step, as its connection may fail;
its transaction is then undone. All replicas have one clock.

`Cluster.recorded` lists all samples that were ever committed, and a `Reading` what it was and what the time was
when the target was selected. No step depends on them.

`Cluster.Sound` says that a committed sample is in the table or older than the hold. So a sweep never selects
less than the highest demand that was recorded within the hold of that moment. It may select more, as the hold is
counted from its own earlier reading of the clock, and it may miss a sample within the hold of that reading, as
another replica with a later reading may have deleted it. `burst_target_held` is the result.
-/

set_option autoImplicit false
set_option relaxedAutoImplicit false

namespace Holbuild.RemoteExec.BurstTarget

open Library

/-! ### The demand -/

/-- What `queue` reads of a row of `actions`, with its key. -/
structure QueuedAction where
  batchId : Uuid
  inputKey : String
  state : ActionState
  tier : Tier
  actionClass : ActionClass
deriving DecidableEq

/-- `QueueCounts`. -/
structure QueueCounts where
  waiting : ℕ
  readyStandard : ℕ
  readyHigh : ℕ
  runningStandard : ℕ
  runningHigh : ℕ
  readyRun : ℕ
  runningRun : ℕ
  highRun : ℕ
deriving DecidableEq, Repr

/-- `count(*)` of a group of `GROUP BY state, tier, class`. -/
def groupCount (actions : Finset QueuedAction) (state : ActionState) (tier : Tier) (actionClass : ActionClass) : ℕ :=
  (actions.filter fun a ↦ a.state = state ∧ a.tier = tier ∧ a.actionClass = actionClass).card

/-- The counts of `queue`. -/
def queueCounts (actions : Finset QueuedAction) : QueueCounts :=
  let count (state : ActionState) (tier : Tier) :=
    groupCount actions state tier .build + groupCount actions state tier .run
  let runs (state : ActionState) := groupCount actions state .standard .run + groupCount actions state .high .run
  { waiting := count .waiting .standard + count .waiting .high
    readyStandard := count .ready .standard
    readyHigh := count .ready .high
    runningStandard := count .running .standard
    runningHigh := count .running .high
    readyRun := runs .ready
    runningRun := runs .running
    highRun := groupCount actions .ready .high .run + groupCount actions .running .high .run }

/-- `burst_demand`. -/
def burstDemand (counts : QueueCounts) (warmWorkers maxBurstWorkers runSlots : ℕ) : ℤ :=
  let ready : ℤ := counts.readyStandard + counts.readyHigh
  let running : ℤ := counts.runningStandard + counts.runningHigh
  let runs : ℤ := counts.readyRun + counts.runningRun
  let active := ready + running - runs + min (runSlots : ℤ) runs
  let high : ℤ := counts.readyHigh + counts.runningHigh - counts.highRun + min (runSlots : ℤ) counts.highRun
  let demand := max (max 0 (active - warmWorkers)) high
  min demand maxBurstWorkers

/-- Ready or running. -/
def QueuedAction.active (a : QueuedAction) : Prop := a.state = .ready ∨ a.state = .running

instance (a : QueuedAction) : Decidable a.active := inferInstanceAs (Decidable (_ ∨ _))

def QueuedAction.high (a : QueuedAction) : Prop := a.tier = .high

instance (a : QueuedAction) : Decidable a.high := inferInstanceAs (Decidable (_ = _))

def QueuedAction.isRun (a : QueuedAction) : Prop := a.actionClass = .run

instance (a : QueuedAction) : Decidable a.isRun := inferInstanceAs (Decidable (_ = _))

/-- The burst workers are enough: every choice of the ready and running actions with at most `runSlots` runs can
be worked on at once, by them and the warm workers, which are standard-tier. -/
def Sufficient (actions : Finset QueuedAction) (warmWorkers runSlots burst : ℕ) : Prop :=
  ∀ jobs ⊆ actions.filter QueuedAction.active, (jobs.filter QueuedAction.isRun).card ≤ runSlots →
    Staffed burst warmWorkers QueuedAction.high jobs

section

variable {actions : Finset QueuedAction}

/-- The ready and running actions of a tier and class. -/
def activeCount (actions : Finset QueuedAction) (tier : Tier) (actionClass : ActionClass) : ℕ :=
  groupCount actions .ready tier actionClass + groupCount actions .running tier actionClass

/-- The ready and running actions of some tiers and classes, group by group. -/
theorem card_active (p : Tier → ActionClass → Prop) [∀ tier, DecidablePred (p tier)] :
    ((actions.filter QueuedAction.active).filter fun a ↦ p a.tier a.actionClass).card =
      (if p .standard .build then activeCount actions .standard .build else 0) +
      (if p .standard .run then activeCount actions .standard .run else 0) +
      (if p .high .build then activeCount actions .high .build else 0) +
      (if p .high .run then activeCount actions .high .run else 0) := by
  have hgroup (tier : Tier) (actionClass : ActionClass) :
      (if p tier actionClass then activeCount actions tier actionClass else 0) =
        ∑ a ∈ actions, if a.active ∧ (a.tier = tier ∧ a.actionClass = actionClass) ∧ p tier actionClass
          then 1 else 0 := by
    split_ifs with h
    · simp only [activeCount, groupCount, Finset.card_filter, ← Finset.sum_add_distrib]
      refine Finset.sum_congr rfl fun a _ ↦ ?_
      cases hstate : a.state <;> simp [QueuedAction.active, hstate, h]
    · simp [h]
  rw [hgroup, hgroup, hgroup, hgroup, Finset.filter_filter, Finset.card_filter, ← Finset.sum_add_distrib,
    ← Finset.sum_add_distrib, ← Finset.sum_add_distrib]
  refine Finset.sum_congr rfl fun a _ ↦ ?_
  cases htier : a.tier <;> cases hclass : a.actionClass <;> simp

/-- The burst workers are enough exactly when they are for the special and for all actions of the largest
choice. -/
theorem sufficient_iff {warmWorkers runSlots burst : ℕ} : Sufficient actions warmWorkers runSlots burst ↔
    activeCount actions .high .build + min runSlots (activeCount actions .high .run) ≤ burst ∧
      activeCount actions .standard .build + activeCount actions .high .build +
        min runSlots (activeCount actions .standard .run + activeCount actions .high .run) ≤ burst + warmWorkers := by
  unfold Sufficient
  rw [forall_capped_staffed_iff]
  have hhighBuild : ((actions.filter QueuedAction.active).filter fun a ↦ a.high ∧ ¬a.isRun).card = _ :=
    card_active fun tier actionClass ↦ tier = .high ∧ ¬actionClass = .run
  have hhighRun : ((actions.filter QueuedAction.active).filter fun a ↦ a.high ∧ a.isRun).card = _ :=
    card_active fun tier actionClass ↦ tier = .high ∧ actionClass = .run
  have hbuild : ((actions.filter QueuedAction.active).filter fun a ↦ ¬a.isRun).card = _ :=
    card_active fun _ actionClass ↦ ¬actionClass = .run
  have hrun : ((actions.filter QueuedAction.active).filter QueuedAction.isRun).card = _ :=
    card_active fun _ actionClass ↦ actionClass = .run
  rw [hhighBuild, hhighRun, hbuild, hrun]
  simp

theorem burstDemand_queueCounts (actions : Finset QueuedAction) (warmWorkers maxBurstWorkers runSlots : ℕ) :
    burstDemand (queueCounts actions) warmWorkers maxBurstWorkers runSlots =
      min (maxBurstWorkers : ℤ) (max
        (activeCount actions .high .build + min runSlots (activeCount actions .high .run))
        (activeCount actions .standard .build + activeCount actions .high .build +
          min runSlots (activeCount actions .standard .run + activeCount actions .high .run) - warmWorkers) : ℕ) := by
  have hactive : ((queueCounts actions).readyStandard + (queueCounts actions).readyHigh +
      ((queueCounts actions).runningStandard + (queueCounts actions).runningHigh) -
      ((queueCounts actions).readyRun + (queueCounts actions).runningRun) +
      min (runSlots : ℤ) ((queueCounts actions).readyRun + (queueCounts actions).runningRun) : ℤ) =
      (activeCount actions .standard .build + activeCount actions .high .build +
        min runSlots (activeCount actions .standard .run + activeCount actions .high .run) : ℕ) := by
    simp only [queueCounts, activeCount]
    omega
  have hhigh : ((queueCounts actions).readyHigh + (queueCounts actions).runningHigh -
      (queueCounts actions).highRun + min (runSlots : ℤ) (queueCounts actions).highRun : ℤ) =
      (activeCount actions .high .build + min runSlots (activeCount actions .high .run) : ℕ) := by
    simp only [queueCounts, activeCount]
    omega
  have hsub (n : ℕ) : max 0 ((n : ℤ) - warmWorkers) = (n - warmWorkers : ℕ) := by omega
  simp only [burstDemand]
  rw [hactive, hhigh, hsub, min_comm, max_comm, Nat.cast_max]

/-- The demand is the least number of burst workers that is enough, up to the cap. -/
theorem burstDemand_eq (actions : Finset QueuedAction) (warmWorkers maxBurstWorkers runSlots : ℕ) :
    ∃ least : ℕ, IsLeast {burst | Sufficient actions warmWorkers runSlots burst} least ∧
      burstDemand (queueCounts actions) warmWorkers maxBurstWorkers runSlots = min (maxBurstWorkers : ℤ) least := by
  refine ⟨_, ⟨?_, fun burst hburst ↦ ?_⟩, burstDemand_queueCounts actions warmWorkers maxBurstWorkers runSlots⟩
  · refine sufficient_iff.mpr ?_
    omega
  · have := sufficient_iff.mp hburst
    omega

end

/-! ### The samples -/

/-- A row of `burst_demand`: `at` and `workers`. -/
structure Sample where
  recordedAt : Time
  workers : ℤ
deriving DecidableEq, Repr

/-- The settings that all replicas share. -/
structure Settings where
  warmWorkers : ℕ
  maxBurstWorkers : ℕ
  runSlots : ℕ
  /-- In microseconds. -/
  scaleDownHold : ℕ
  scaleCmd : Option String
deriving DecidableEq

/-- What a sweep selected, from its own reading of the clock, and what held at that moment: the time, and the
samples that were committed, with its own. -/
structure Reading where
  now : Time
  own : ℕ
  desired : ℤ
  selectedAt : Time
  recorded : Finset ℕ
deriving DecidableEq

/-- Where the sweep of a replica is: between two, after `queue`, after its reading of the clock, in its
transaction, after the transaction, or running the scale command. -/
inductive Phase
  | idle
  | counted (demand : ℤ)
  | began (demand : ℤ) (now : Time)
  | pruned (demand : ℤ) (now : Time) (deleted : Finset ℕ)
  | inserted (now : Time) (deleted : Finset ℕ) (own : ℕ)
  | selected (deleted : Finset ℕ) (reading : Reading)
  | committed (reading : Reading)
  | scaling (reading : Reading)
deriving DecidableEq

/-- The replicas and their table. A row keeps its number in `samples`; `table` has those that are committed,
`locked` those that an open transaction has deleted, and `recorded` all that ever were committed. -/
structure Cluster where
  clock : Time
  samples : List Sample
  table : Finset ℕ
  locked : Finset ℕ
  recorded : Finset ℕ
  phase : ℕ → Phase
  scaledTo : ℕ → Option ℤ

/-- Time passes, `queue` answers a client, which only reads, or the sweep of a replica goes on: it counts the
actions there are, or makes its next step, or stops, or its scale command ends. -/
inductive Event
  | tick (micros : ℕ)
  | queue (replica : ℕ)
  | count (replica : ℕ) (actions : Finset QueuedAction)
  | go (replica : ℕ)
  | stop (replica : ℕ)
  | scaled (replica : ℕ) (succeeded : Bool)

namespace Cluster

/-- `make_interval(secs => :hold)` has not passed from a row to a time. -/
def within (hold : ℕ) (c : Cluster) (time : Time) (row : ℕ) : Bool :=
  (c.samples[row]?).any fun sample ↦ time - hold ≤ sample.recordedAt

/-- `coalesce(max(workers), 0)` over some rows. -/
def highest (c : Cluster) (rows : Finset ℕ) : ℤ :=
  ((rows.biUnion fun row ↦ (c.samples[row]?).toFinset.image Sample.workers).max).unbotD 0

def setPhase (replica : ℕ) (phase : Phase) (c : Cluster) : Cluster :=
  { c with phase := Function.update c.phase replica phase }

/-- `HELD_TARGET`, in a transaction that sees some rows. -/
def heldTarget (settings : Settings) (c : Cluster) (visible : Finset ℕ) (now : Time) : ℤ :=
  min (c.highest (visible.filter fun row ↦ c.within settings.scaleDownHold now row)) settings.maxBurstWorkers

/-- What an open transaction has deleted. -/
def undo : Phase → Finset ℕ
  | .pruned _ _ deleted | .inserted _ deleted _ | .selected deleted _ => deleted
  | _ => ∅

/-- The next step of a sweep. -/
def go (settings : Settings) (replica : ℕ) (c : Cluster) : Option Cluster :=
  match c.phase replica with
  | .idle | .scaling _ => none
  | .counted demand => some (c.setPhase replica (.began demand c.clock))
  | .began demand now =>
    let older := c.table.filter fun row ↦ !c.within settings.scaleDownHold now row
    if Disjoint older c.locked then
      some { c.setPhase replica (.pruned demand now older) with locked := c.locked ∪ older }
    else none
  | .pruned demand now deleted =>
    some { c.setPhase replica (.inserted now deleted c.samples.length) with samples := c.samples ++ [⟨now, demand⟩] }
  | .inserted now deleted own =>
    let desired := c.heldTarget settings (insert own (c.table \ deleted)) now
    some <| c.setPhase replica (.selected deleted ⟨now, own, desired, c.clock, insert own c.recorded⟩)
  | .selected deleted reading =>
    some { c.setPhase replica (.committed reading) with
      table := insert reading.own (c.table \ deleted)
      locked := c.locked \ deleted
      recorded := insert reading.own c.recorded }
  | .committed reading =>
    if settings.scaleCmd = none ∨ c.scaledTo replica = some reading.desired then
      some (c.setPhase replica .idle)
    else some (c.setPhase replica (.scaling reading))

end Cluster

/-- One event. -/
def step (settings : Settings) (c : Cluster) : Event → Option Cluster
  | .tick micros => some { c with clock := c.clock + micros }
  | .queue _ => some c
  | .count replica actions =>
    match c.phase replica with
    | .idle => some <| c.setPhase replica <| .counted <|
        burstDemand (queueCounts actions) settings.warmWorkers settings.maxBurstWorkers settings.runSlots
    | _ => none
  | .go replica => c.go settings replica
  | .stop replica =>
    some { c.setPhase replica .idle with locked := c.locked \ Cluster.undo (c.phase replica) }
  | .scaled replica succeeded =>
    match c.phase replica with
    | .scaling reading =>
      let c := c.setPhase replica .idle
      some (if succeeded then
        { c with scaledTo := Function.update c.scaledTo replica (some reading.desired) } else c)
    | _ => none

/-- No samples, and no sweep has begun. -/
def start (clock : Time) : Cluster := ⟨clock, [], ∅, ∅, ∅, fun _ ↦ .idle, fun _ ↦ none⟩

/-- The replicas of a database, from its creation. -/
def machine (settings : Settings) (clock : Time) : Machine Cluster Event := ⟨start clock, step settings⟩

/-! ### What a sweep selects -/

/-- A target is the highest of some recorded demands, up to the cap: the sweep's own, every one within the hold of
the moment it was selected, and none older than the hold at the sweep's own reading of the clock. -/
def Held (settings : Settings) (c : Cluster) (reading : Reading) : Prop :=
  reading.now ≤ reading.selectedAt ∧
  ∃ rows ⊆ reading.recorded,
    reading.desired = min (c.highest rows) settings.maxBurstWorkers ∧
    reading.own ∈ rows ∧
    (∀ row ∈ reading.recorded, c.within settings.scaleDownHold reading.selectedAt row → row ∈ rows) ∧
    ∀ row ∈ rows, c.within settings.scaleDownHold reading.now row

/-- The highest of the demands recorded within the hold of a time, under the cap. -/
def highestWithin (settings : Settings) (c : Cluster) (reading : Reading) (time : Time) : ℤ :=
  min (c.highest (reading.recorded.filter fun row ↦ c.within settings.scaleDownHold time row)) settings.maxBurstWorkers

section

variable {settings : Settings} {c c' : Cluster} {reading : Reading} {row : ℕ}

/-- When no time passed between the sweep's reading of the clock and its selection, the target is the highest of
the demands recorded within the hold. -/
theorem Held.eq_highestWithin (h : Held settings c reading) (hsame : reading.selectedAt = reading.now) :
    reading.desired = highestWithin settings c reading reading.now := by
  obtain ⟨-, rows, hrows, hdesired, -, hnew, hold⟩ := h
  rw [hdesired, highestWithin]
  congr 2
  ext row
  rw [Finset.mem_filter]
  exact ⟨fun hrow ↦ ⟨hrows hrow, hold row hrow⟩, fun ⟨hrow, hwithin⟩ ↦ hnew row hrow (hsame ▸ hwithin)⟩

/-- Time has passed and samples were inserted. -/
def Later (c c' : Cluster) : Prop := c.clock ≤ c'.clock ∧ ∃ more, c'.samples = c.samples ++ more

theorem Later.refl : Later c c := ⟨le_rfl, [], (List.append_nil _).symm⟩

theorem Later.length_le (h : Later c c') : c.samples.length ≤ c'.samples.length := by
  obtain ⟨-, more, heq⟩ := h
  simp [heq]

theorem Later.getElem? (h : Later c c') (hrow : row < c.samples.length) : c'.samples[row]? = c.samples[row]? := by
  obtain ⟨-, more, heq⟩ := h
  rw [heq, List.getElem?_append_left hrow]

theorem Later.within_eq (h : Later c c') (hrow : row < c.samples.length) (hold : ℕ) (time : Time) :
    c'.within hold time row = c.within hold time row := by
  simp only [Cluster.within, h.getElem? hrow]

theorem Later.highest_eq (h : Later c c') {rows : Finset ℕ} (hrows : ∀ row ∈ rows, row < c.samples.length) :
    c'.highest rows = c.highest rows := by
  unfold Cluster.highest
  congr 2
  exact Finset.biUnion_congr rfl fun row hrow ↦ by rw [h.getElem? (hrows row hrow)]

theorem within_iff {hold : ℕ} {time : Time} : c.within hold time row ↔
    ∃ sample, c.samples[row]? = some sample ∧ time - hold ≤ sample.recordedAt := by
  simp [Cluster.within, Option.any_eq_true]

/-- What is within the hold of a time is within the hold of an earlier one. -/
theorem within_of_le {hold : ℕ} {time time' : Time} (hle : time ≤ time') (h : c.within hold time' row) :
    c.within hold time row := by
  obtain ⟨sample, hsample, hwithin⟩ := within_iff.mp h
  exact within_iff.mpr ⟨sample, hsample, (sub_le_sub_right hle _).trans hwithin⟩

/-- Some rows are older than the hold of a time that has passed. -/
def Older (settings : Settings) (c : Cluster) (rows : Finset ℕ) : Prop :=
  ∀ row ∈ rows, row < c.samples.length ∧ ¬c.within settings.scaleDownHold c.clock row

theorem Older.later {rows : Finset ℕ} (h : Older settings c rows) (hlater : Later c c') :
    Older settings c' rows := fun row hrow ↦ by
  obtain ⟨hlt, hold⟩ := h row hrow
  refine ⟨hlt.trans_le hlater.length_le, fun hwithin ↦ hold ?_⟩
  rw [hlater.within_eq hlt] at hwithin
  exact within_of_le hlater.1 hwithin

/-- The rows that a reading is about have been inserted. -/
def Reading.Known (c : Cluster) (reading : Reading) : Prop := ∀ row ∈ insert reading.own reading.recorded,
  row < c.samples.length

theorem Reading.Known.later (h : reading.Known c) (hlater : Later c c') : reading.Known c' :=
  fun row hrow ↦ (h row hrow).trans_le hlater.length_le

theorem Held.later (h : Held settings c reading) (hknown : reading.Known c) (hlater : Later c c') :
    Held settings c' reading := by
  obtain ⟨hle, rows, hrows, hdesired, hown, hnew, hold⟩ := h
  have hlt : ∀ row ∈ reading.recorded, row < c.samples.length := fun row hrow ↦
    hknown row (Finset.mem_insert_of_mem hrow)
  refine ⟨hle, rows, hrows, ?_, hown, fun row hrow hwithin ↦ ?_, fun row hrow ↦ ?_⟩
  · rw [hlater.highest_eq fun row hrow ↦ hlt row (hrows hrow), hdesired]
  · exact hnew row hrow (hlater.within_eq (hlt row hrow) .. ▸ hwithin)
  · exact (hlater.within_eq (hlt row (hrows hrow)) ..).symm ▸ hold row hrow

/-- What holds of a sweep at each of its steps. -/
def PhaseOk (settings : Settings) (c : Cluster) : Phase → Prop
  | .idle | .counted _ => True
  | .began _ now => now ≤ c.clock
  | .pruned _ now deleted => now ≤ c.clock ∧ Older settings c deleted
  | .inserted now deleted own => now ≤ c.clock ∧ Older settings c deleted ∧
      ∃ demand, c.samples[own]? = some ⟨now, demand⟩
  | .selected deleted reading => Older settings c deleted ∧ reading.Known c ∧ Held settings c reading
  | .committed reading | .scaling reading => reading.Known c ∧ Held settings c reading

theorem PhaseOk.later {phase : Phase} (h : PhaseOk settings c phase) (hlater : Later c c') :
    PhaseOk settings c' phase := by
  cases phase with
  | idle => trivial
  | counted demand => trivial
  | began demand now => exact h.trans hlater.1
  | pruned demand now deleted => exact ⟨h.1.trans hlater.1, h.2.later hlater⟩
  | inserted now deleted own =>
    obtain ⟨hnow, hdeleted, demand, hown⟩ := h
    have hlt := (List.getElem?_eq_some_iff.mp hown).1
    exact ⟨hnow.trans hlater.1, hdeleted.later hlater, demand, (hlater.getElem? hlt).trans hown⟩
  | selected deleted reading => exact ⟨h.1.later hlater, h.2.1.later hlater, h.2.2.later h.2.1 hlater⟩
  | committed reading => exact ⟨h.1.later hlater, h.2.later h.1 hlater⟩
  | scaling reading => exact ⟨h.1.later hlater, h.2.later h.1 hlater⟩

/-- Every committed sample is in the table, or older than the hold. -/
structure Sound (settings : Settings) (c : Cluster) : Prop where
  table_subset : c.table ⊆ c.recorded
  recorded_lt : ∀ row ∈ c.recorded, row < c.samples.length
  older : Older settings c (c.recorded \ c.table)
  phases : ∀ replica, PhaseOk settings c (c.phase replica)

/-- A step that leaves the table as it is, and takes one sweep on. -/
theorem Sound.of_later (hs : Sound settings c) (hlater : Later c c') (htable : c'.table = c.table)
    (hrecorded : c'.recorded = c.recorded) {replica : ℕ} {phase : Phase}
    (hphases : c'.phase = Function.update c.phase replica phase) (hphase : PhaseOk settings c' phase) :
    Sound settings c' where
  table_subset := by rw [htable, hrecorded]; exact hs.table_subset
  recorded_lt row hrow := (hs.recorded_lt row (hrecorded ▸ hrow)).trans_le hlater.length_le
  older := by rw [htable, hrecorded]; exact hs.older.later hlater
  phases other := by
    rw [hphases, Function.update_apply]
    split_ifs
    · exact hphase
    · exact (hs.phases other).later hlater

/-- What a sweep in its transaction selects is held. -/
theorem Sound.held (hs : Sound settings c) {now : Time} {deleted : Finset ℕ} {own : ℕ} {demand : ℤ}
    (hnow : now ≤ c.clock) (hdeleted : Older settings c deleted) (hown : c.samples[own]? = some ⟨now, demand⟩) :
    Held settings c ⟨now, own, c.heldTarget settings (insert own (c.table \ deleted)) now, c.clock,
      insert own c.recorded⟩ := by
  have hownWithin : c.within settings.scaleDownHold now own := within_iff.mpr ⟨_, hown, by simp⟩
  refine ⟨hnow, (insert own (c.table \ deleted)).filter fun row ↦ c.within settings.scaleDownHold now row,
    ?_, rfl, ?_, fun row hrow hwithin ↦ ?_, fun row hrow ↦ (Finset.mem_filter.mp hrow).2⟩
  · refine (Finset.filter_subset _ _).trans (Finset.insert_subset_insert _ ?_)
    exact Finset.sdiff_subset.trans hs.table_subset
  · exact Finset.mem_filter.mpr ⟨Finset.mem_insert_self _ _, hownWithin⟩
  · refine Finset.mem_filter.mpr ⟨?_, within_of_le hnow hwithin⟩
    rcases Finset.mem_insert.mp hrow with rfl | hrow
    · exact Finset.mem_insert_self _ _
    · -- a row that some transaction deleted is older than the hold
      refine Finset.mem_insert_of_mem (Finset.mem_sdiff.mpr ⟨?_, fun hmem ↦ (hdeleted row hmem).2 hwithin⟩)
      by_contra htable
      exact (hs.older row (Finset.mem_sdiff.mpr ⟨hrow, htable⟩)).2 hwithin

theorem Sound.commit (hs : Sound settings c) {replica : ℕ} {deleted : Finset ℕ}
    (hphase : c.phase replica = .selected deleted reading) :
    Sound settings { c.setPhase replica (.committed reading) with
      table := insert reading.own (c.table \ deleted)
      locked := c.locked \ deleted
      recorded := insert reading.own c.recorded } := by
  have hok := hs.phases replica
  rw [hphase] at hok
  obtain ⟨hdeleted, hknown, hheld⟩ := hok
  refine ⟨?_, ?_, ?_, fun other ↦ ?_⟩
  · exact Finset.insert_subset_insert _ (Finset.sdiff_subset.trans hs.table_subset)
  · intro row hrow
    rcases Finset.mem_insert.mp hrow with rfl | hrow
    · exact hknown _ (Finset.mem_insert_self _ _)
    · exact hs.recorded_lt row hrow
  · intro row hrow
    obtain ⟨hrow, hgone⟩ := Finset.mem_sdiff.mp hrow
    obtain ⟨hne, hgone⟩ := not_or.mp (fun h ↦ hgone (Finset.mem_insert.mpr h))
    have hrow := (Finset.mem_insert.mp hrow).resolve_left hne
    by_cases hmem : row ∈ deleted
    · exact hdeleted row hmem
    · exact hs.older row (Finset.mem_sdiff.mpr ⟨hrow, fun h ↦ hgone (Finset.mem_sdiff.mpr ⟨h, hmem⟩)⟩)
  · change PhaseOk settings c (Function.update c.phase replica (.committed reading) other)
    rw [Function.update_apply]
    split_ifs
    · exact ⟨hknown, hheld⟩
    · exact hs.phases other

theorem Sound.go (hs : Sound settings c) {replica : ℕ} (hgo : c.go settings replica = some c') :
    Sound settings c' := by
  have hok := hs.phases replica
  unfold Cluster.go at hgo
  split at hgo
  next => exact nomatch hgo
  next => exact nomatch hgo
  next demand hphase =>
    obtain rfl := Option.some.inj hgo
    exact hs.of_later .refl rfl rfl rfl le_rfl
  next demand now hphase =>
    rw [hphase] at hok
    dsimp only at hgo
    split_ifs at hgo
    obtain rfl := Option.some.inj hgo
    refine hs.of_later .refl rfl rfl rfl ⟨hok, fun row hrow ↦ ?_⟩
    obtain ⟨htable, hold⟩ := Finset.mem_filter.mp hrow
    have hnow : ¬c.within settings.scaleDownHold now row := by simpa using hold
    exact ⟨hs.recorded_lt row (hs.table_subset htable), fun hwithin ↦ hnow (within_of_le hok hwithin)⟩
  next demand now deleted hphase =>
    rw [hphase] at hok
    obtain rfl := Option.some.inj hgo
    have hlater : Later c { c.setPhase replica (.inserted now deleted c.samples.length) with
        samples := c.samples ++ [⟨now, demand⟩] } := ⟨le_rfl, _, rfl⟩
    exact hs.of_later hlater rfl rfl rfl ⟨hok.1, hok.2.later hlater, demand, List.getElem?_concat_length⟩
  next now deleted own hphase =>
    rw [hphase] at hok
    obtain ⟨hnow, hdeleted, demand, hown⟩ := hok
    obtain rfl := Option.some.inj hgo
    refine hs.of_later .refl rfl rfl rfl ⟨hdeleted, fun row hrow ↦ ?_, hs.held hnow hdeleted hown⟩
    rcases Finset.mem_insert.mp ((Finset.insert_idem own c.recorded).subset hrow) with rfl | hrow
    · exact (List.getElem?_eq_some_iff.mp hown).1
    · exact hs.recorded_lt row hrow
  next deleted reading hphase =>
    obtain rfl := Option.some.inj hgo
    exact hs.commit hphase
  next reading hphase =>
    rw [hphase] at hok
    split_ifs at hgo <;> obtain rfl := Option.some.inj hgo
    · exact hs.of_later .refl rfl rfl rfl trivial
    · exact hs.of_later .refl rfl rfl rfl hok

theorem Sound.step (hs : Sound settings c) {event : Event} (hstep : step settings c event = some c') :
    Sound settings c' := by
  cases event with
  | tick micros =>
    obtain rfl := Option.some.inj hstep
    have hlater : Later c { c with clock := c.clock + micros } := ⟨by simp, [], (List.append_nil _).symm⟩
    exact ⟨hs.table_subset, hs.recorded_lt, hs.older.later hlater, fun replica ↦ (hs.phases replica).later hlater⟩
  | queue replica => exact Option.some.inj hstep ▸ hs
  | count replica actions =>
    simp only [BurstTarget.step] at hstep
    split at hstep
    next =>
      obtain rfl := Option.some.inj hstep
      exact hs.of_later .refl rfl rfl rfl trivial
    next => exact nomatch hstep
  | go replica => exact hs.go hstep
  | stop replica =>
    obtain rfl := Option.some.inj hstep
    exact hs.of_later .refl rfl rfl rfl trivial
  | scaled replica succeeded =>
    simp only [BurstTarget.step] at hstep
    split at hstep
    next =>
      obtain rfl := Option.some.inj hstep
      cases succeeded <;> exact hs.of_later .refl rfl rfl rfl trivial
    next => exact nomatch hstep

theorem sound {clock : Time} (hreachable : (machine settings clock).Reachable c) : Sound settings c := by
  refine hreachable.invariant (P := Sound settings) ?_ fun _ _ _ _ hs hstep ↦ hs.step hstep
  exact ⟨subset_rfl, fun _ hrow ↦ absurd hrow (Finset.notMem_empty _),
    fun _ hrow ↦ absurd hrow (Finset.notMem_empty _), fun _ ↦ trivial⟩

end

/-! ### The result -/

/-- The demand is the least number of burst workers that is enough, up to the cap. And the target that a sweep
passes to the scale command is the highest of its own and other recorded demands, up to the cap: of every one
recorded within the hold of the moment it was selected, and of none older than the hold at the sweep's reading of
the clock; so exactly of those recorded within the hold where no time passed between the two. -/
theorem burst_target_held (actions : Finset QueuedAction) (settings : Settings) (clock : Time) :
    (∃ least : ℕ,
      IsLeast {burst | Sufficient actions settings.warmWorkers settings.runSlots burst} least ∧
      burstDemand (queueCounts actions) settings.warmWorkers settings.maxBurstWorkers settings.runSlots =
        min (settings.maxBurstWorkers : ℤ) least) ∧
    ∀ c, (machine settings clock).Reachable c → ∀ replica reading, c.phase replica = .scaling reading →
      Held settings c reading ∧
      (reading.selectedAt = reading.now → reading.desired = highestWithin settings c reading reading.now) := by
  refine ⟨burstDemand_eq actions _ _ _, fun c hreachable replica reading hphase ↦ ?_⟩
  have hok := (sound hreachable).phases replica
  rw [hphase] at hok
  exact ⟨hok.2, hok.2.eq_highestWithin⟩

/-- One burst worker at most, and a hold of ten microseconds. -/
def sampleSettings : Settings := ⟨0, 1, 0, 10, some "scale"⟩

def sampleAction : QueuedAction := ⟨0, "key", .ready, .standard, .build⟩

/-- A replica records a demand of one worker at time 0 and passes it on; the next reads the clock at time 9. -/
def firstSweep : List Event :=
  [.count 0 {sampleAction}, .go 0, .go 0, .go 0, .go 0, .go 0, .go 0, .scaled 0 true, .tick 9, .count 1 ∅, .go 1]

/-- The rest of the second sweep. -/
def secondSweep : List Event := [.go 1, .go 1, .go 1, .go 1, .go 1]

/-- Before that, a third replica reads the clock at time 11 and deletes the first sample. -/
def prunedRun : List Event := firstSweep ++ [.tick 2, .count 2 ∅, .go 2, .go 2, .go 2, .go 2, .go 2] ++ secondSweep

/-- Before that, the clock goes on to time 12. -/
def lateRun : List Event := firstSweep ++ [.tick 3] ++ secondSweep

theorem prunedRun_isSome : ((machine sampleSettings 0).run (machine sampleSettings 0).initial prunedRun).isSome := by
  decide +kernel

theorem burst_target_held_prunedRun : ∃ c, (machine sampleSettings 0).Reachable c ∧
    c.phase 1 = .scaling ⟨9, 2, 0, 11, {2, 1, 0}⟩ ∧ Held sampleSettings c ⟨9, 2, 0, 11, {2, 1, 0}⟩ := by
  have hphase : (((machine sampleSettings 0).run _ prunedRun).get prunedRun_isSome).phase 1 =
      .scaling ⟨9, 2, 0, 11, {2, 1, 0}⟩ := by decide +kernel
  have hreachable := Machine.reachable_of_run prunedRun_isSome
  exact ⟨_, hreachable, hphase, ((burst_target_held ∅ sampleSettings 0).2 _ hreachable 1 _ hphase).1⟩

/-- The target that a run passes on at its end for a replica, with the highest demands recorded within the hold of
its reading of the clock and within that of its selection. -/
def passed (events : List Event) (replica : ℕ) : Option (ℤ × ℤ × ℤ) :=
  ((machine sampleSettings 0).run (start 0) events).bind fun c ↦
    match c.phase replica with
    | .scaling reading => some (reading.desired, highestWithin sampleSettings c reading reading.now,
        highestWithin sampleSettings c reading reading.selectedAt)
    | _ => none

/-- A target may miss a demand recorded within the hold of the sweep's reading of the clock, and may be above all
those recorded within the hold of its selection. -/
theorem hold_not_exact : passed prunedRun 1 = some (0, 1, 0) ∧ passed lateRun 1 = some (1, 1, 0) := by
  decide +kernel

end Holbuild.RemoteExec.BurstTarget
