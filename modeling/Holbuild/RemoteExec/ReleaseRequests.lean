import Holbuild.Library.Machine
import Mathlib.Data.Finset.Card
import Mathlib.Data.Prod.Lex
import Mathlib.Logic.Function.Basic

/-!
# Requests for releases

`Coordinator.request_release`, the tasks of `_run_releases` and the calls of `released`, in one event loop. What
runs between two awaits is one step (`step`). A request may come at any of them, a pass may end normally or by an
exception that is logged, and the passes of a turn are made in any order.

The requests themselves are not kept by the code: `Loop.requests` lists them all, and each one is asked until a
pass for its target begins and passed when that pass has ended. No step depends on them.

`Loop.Sound` says that a task is unfinished only as the current one of its kind, that a pending target has one,
and where a request is that is not yet passed. The law for safety follows from it (`Loop.Sound.step`). That every
request is passed in the end rests on a rank that falls whenever its task goes on (`ahead_lt`). `releases_kept`
is the result.

Scope. No task is cancelled. What a pass does is left out, as it does not touch what the tasks share.
-/

set_option autoImplicit false
set_option relaxedAutoImplicit false

namespace Holbuild.RemoteExec.ReleaseRequests

open Library

/-! ### The event loop -/

/-- What is to be released: a batch, or every batch. -/
abbrev Target (Batch : Type) := Option Batch

/-- Where a request is. -/
inductive Progress
  | asked | passing | passed
deriving DecidableEq, Repr

structure Request (Batch : Type) where
  target : Target Batch
  progress : Progress
deriving DecidableEq

/-- The await that a task of `_run_releases` is at: its beginning, or a pass, with the targets left of its
turn. -/
inductive Stage (Batch : Type)
  | created
  | releasing (target : Target Batch) (rest : Finset (Target Batch))
  | done

/-- A task of `_run_releases`. -/
structure Releaser (Batch : Type) where
  every : Bool
  stage : Stage Batch

/-- A call of `released`: the number of requests made before it, and the tasks that it waits for. -/
structure Wait where
  before : ℕ
  running : List ℕ
  returned : Bool

/-- What the tasks and calls share. Tasks are numbered as they are created. -/
structure Loop (Batch : Type) where
  releasePending : Finset (Target Batch)
  releasers : Bool → Option ℕ
  tasks : ℕ → Option (Releaser Batch)
  created : ℕ
  requests : List (Request Batch)
  waits : ℕ → Option Wait

/-- A release is requested, a task goes on and makes its next pass for a target, or a call of `released` begins
or goes on. -/
inductive Event (Batch : Type)
  | request (target : Target Batch)
  | go (id : ℕ) (next : Target Batch)
  | released (call : ℕ)
  | resumed (call : ℕ)

variable {Batch : Type} [DecidableEq Batch]

/-- Whether a request is for every batch. -/
def isEvery (target : Target Batch) : Bool := target.isNone

def Stage.isDone : Stage Batch → Bool
  | .done => true
  | _ => false

def Request.moved (target : Target Batch) (old new : Progress) (r : Request Batch) : Request Batch :=
  if r.target = target ∧ r.progress = old then { r with progress := new } else r

namespace Loop

def setTask (id : ℕ) (t : Releaser Batch) (s : Loop Batch) : Loop Batch :=
  { s with tasks := Function.update s.tasks id (some t) }

/-- `not releaser.done()`. -/
def unfinished (s : Loop Batch) (id : ℕ) : Bool := (s.tasks id).any fun t ↦ !t.stage.isDone

/-- `request_release`. -/
def requestRelease (target : Target Batch) (s : Loop Batch) : Loop Batch :=
  let s := { s with
    releasePending := insert target s.releasePending
    requests := s.requests ++ [⟨target, .asked⟩] }
  if (s.releasers (isEvery target)).any s.unfinished then s
  else
    { s.setTask s.created ⟨isEvery target, .created⟩ with
      releasers := Function.update s.releasers (isEvery target) (some s.created)
      created := s.created + 1 }

/-- The requests of a target move on. -/
def move (target : Target Batch) (old new : Progress) (s : Loop Batch) : Loop Batch :=
  { s with requests := s.requests.map (Request.moved target old new) }

/-- A task begins the pass for a target. -/
def begin (id : ℕ) (every : Bool) (target : Target Batch) (rest : Finset (Target Batch)) (s : Loop Batch) :
    Loop Batch :=
  (s.move target .asked .passing).setTask id ⟨every, .releasing target rest⟩

/-- What a task takes from the pending targets. -/
def pendingOf (s : Loop Batch) (every : Bool) : Finset (Target Batch) :=
  s.releasePending.filter fun target ↦ isEvery target = every

/-- The head of the loop of `_run_releases`. -/
def turn (id : ℕ) (every : Bool) (next : Target Batch) (s : Loop Batch) : Option (Loop Batch) :=
  if s.pendingOf every = ∅ then some (s.setTask id ⟨every, .done⟩)
  else if next ∈ s.pendingOf every then
    some <| begin id every next ((s.pendingOf every).erase next)
      { s with releasePending := s.releasePending \ s.pendingOf every }
  else none

/-- `running` of `released`. -/
def running (s : Loop Batch) : List ℕ := ([true, false].filterMap s.releasers).filter s.unfinished

/-- The loop of `released`: it returns when nothing runs. -/
def wait (call before : ℕ) (s : Loop Batch) : Loop Batch :=
  { s with waits := Function.update s.waits call (some ⟨before, s.running, s.running.isEmpty⟩) }

end Loop

/-- One event, up to the next await. -/
def step (s : Loop Batch) : Event Batch → Option (Loop Batch)
  | .request target => some (s.requestRelease target)
  | .go id next =>
    match s.tasks id with
    | some ⟨every, .created⟩ => s.turn id every next
    | some ⟨every, .releasing target rest⟩ =>
      let s := s.move target .passing .passed
      if rest = ∅ then s.turn id every next
      else if next ∈ rest then some (s.begin id every next (rest.erase next))
      else none
    | _ => none
  | .released call => if (s.waits call).isSome then none else some (s.wait call s.requests.length)
  | .resumed call =>
    match s.waits call with
    | some w =>
      if w.returned ∨ w.running.any s.unfinished then none else some (s.wait call w.before)
    | none => none

/-- An event loop, from one where nothing was requested. -/
def releaseRequests (Batch : Type) [DecidableEq Batch] : Machine (Loop Batch) (Event Batch) where
  initial := ⟨∅, fun _ ↦ none, fun _ ↦ none, 0, [], fun _ ↦ none⟩
  step := step

/-! ### The invariant -/

namespace Loop

/-- A task of a kind that is not done. -/
def Works (s : Loop Batch) (every : Bool) (id : ℕ) : Prop :=
  ∃ stage : Stage Batch, s.tasks id = some ⟨every, stage⟩ ∧ stage.isDone = false

/-- A target that a pass is to be made for: it is pending, or left of the turn of a task. -/
def Awaits (s : Loop Batch) (target : Target Batch) : Prop :=
  target ∈ s.releasePending ∨
    ∃ id current rest, s.tasks id = some ⟨isEvery target, .releasing current rest⟩ ∧ target ∈ rest

/-- A task makes a pass for a target. -/
def Releases (s : Loop Batch) (target : Target Batch) : Prop :=
  ∃ id rest, s.tasks id = some ⟨isEvery target, .releasing target rest⟩

structure Sound (s : Loop Batch) : Prop where
  tasks_lt : ∀ id t, s.tasks id = some t → id < s.created
  releasers : ∀ every id, s.releasers every = some id → ∃ stage, s.tasks id = some ⟨every, stage⟩
  current : ∀ every id, s.Works every id → s.releasers every = some id
  pending : ∀ target ∈ s.releasePending, ∃ id, s.Works (isEvery target) id
  kinds : ∀ id every target rest, s.tasks id = some ⟨every, .releasing target rest⟩ →
    isEvery target = every ∧ ∀ other ∈ rest, isEvery other = every
  asked : ∀ r ∈ s.requests, r.progress = .asked → s.Awaits r.target
  passing : ∀ r ∈ s.requests, r.progress = .passing → s.Releases r.target
  returned : ∀ call w, s.waits call = some w → w.before ≤ s.requests.length ∧
    (w.returned = true → ∀ r ∈ s.requests.take w.before, r.progress = .passed)

variable {s s' : Loop Batch} {id : ℕ} {every : Bool} {target next : Target Batch} {rest : Finset (Target Batch)}

omit [DecidableEq Batch] in
theorem unfinished_iff : s.unfinished id = true ↔ ∃ every, s.Works every id := by
  unfold unfinished Works
  cases s.tasks id with
  | none => simp
  | some t => obtain ⟨every, stage⟩ := t; simp

omit [DecidableEq Batch] in
theorem Works.eq (h : s.Works every id) {every' : Bool} {stage : Stage Batch}
    (htask : s.tasks id = some ⟨every', stage⟩) : every = every' ∧ stage.isDone = false := by
  obtain ⟨stage', htask', hdone⟩ := h
  rw [htask] at htask'
  obtain ⟨rfl, rfl⟩ := Releaser.mk.inj (Option.some.inj htask')
  exact ⟨rfl, hdone⟩

omit [DecidableEq Batch] in
/-- The current task of a kind is the only unfinished one of the kind. -/
theorem Sound.any_unfinished (hs : s.Sound) :
    (s.releasers every).any s.unfinished = true ↔ ∃ id, s.Works every id := by
  constructor
  · intro h
    cases hcurrent : s.releasers every with
    | none => rw [hcurrent] at h; cases h
    | some id =>
      rw [hcurrent] at h
      obtain ⟨every', hworks⟩ := unfinished_iff.mp h
      obtain ⟨stage, htask⟩ := hs.releasers every id hcurrent
      exact ⟨id, (hworks.eq htask).1 ▸ hworks⟩
  · rintro ⟨id, hworks⟩
    rw [hs.current every id hworks]
    exact unfinished_iff.mpr ⟨every, hworks⟩

omit [DecidableEq Batch] in
theorem Sound.task_eq (hs : s.Sound) {id' : ℕ} (h : s.Works every id) (h' : s.Works every id') : id = id' :=
  Option.some.inj ((hs.current every id h).symm.trans (hs.current every id' h'))

/-! ### Requests -/

theorem Sound.requestRelease (hs : s.Sound) (target : Target Batch) : (s.requestRelease target).Sound := by
  have hreturned : ∀ call w, s.waits call = some w →
      w.before ≤ (s.requests ++ [(⟨target, .asked⟩ : Request Batch)]).length ∧
        (w.returned = true → ∀ r ∈ (s.requests ++ [(⟨target, .asked⟩ : Request Batch)]).take w.before,
          r.progress = .passed) := by
    intro call w hw
    obtain ⟨hbefore, hpassed⟩ := hs.returned call w hw
    rw [List.take_append_of_le_length hbefore, List.length_append]
    exact ⟨hbefore.trans (Nat.le_add_right ..), hpassed⟩
  unfold Loop.requestRelease
  dsimp only
  split_ifs with hany
  · have hworks := hs.any_unfinished.mp hany
    refine ⟨hs.tasks_lt, hs.releasers, hs.current, fun other hother ↦ ?_, hs.kinds, fun r hr hasked ↦ ?_,
      fun r hr hpassing ↦ ?_, hreturned⟩
    · rcases Finset.mem_insert.mp hother with rfl | hother
      · exact hworks
      · exact hs.pending other hother
    · rcases List.mem_append.mp hr with hr | hr
      · exact (hs.asked r hr hasked).imp_left (Finset.mem_insert_of_mem ·)
      · rw [List.mem_singleton.mp hr]
        exact .inl (Finset.mem_insert_self target _)
    · rcases List.mem_append.mp hr with hr | hr
      · exact hs.passing r hr hpassing
      · rw [List.mem_singleton.mp hr] at hpassing
        cases hpassing
  · have hnone : ∀ id, ¬ s.Works (isEvery target) id := fun id hworks ↦ hany (hs.any_unfinished.mpr ⟨id, hworks⟩)
    have hfree : ∀ id t, s.tasks id = some t → id ≠ s.created := fun id t htask ↦ (hs.tasks_lt id t htask).ne
    have hkept : ∀ id t, s.tasks id = some t →
        Function.update s.tasks s.created (some ⟨isEvery target, .created⟩) id = some t := fun id t htask ↦ by
      rw [Function.update_of_ne (hfree id t htask), htask]
    have hold : ∀ id t, Function.update s.tasks s.created (some ⟨isEvery target, .created⟩) id = some t →
        (id = s.created ∧ t = ⟨isEvery target, .created⟩) ∨ s.tasks id = some t := fun id t htask ↦ by
      by_cases hid : id = s.created
      · subst hid
        rw [Function.update_self] at htask
        exact .inl ⟨rfl, (Option.some.inj htask).symm⟩
      · rw [Function.update_of_ne hid] at htask
        exact .inr htask
    have hcreated : ∃ stage : Stage Batch, Function.update s.tasks s.created
        (some ⟨isEvery target, .created⟩) s.created = some ⟨isEvery target, stage⟩ ∧ stage.isDone = false :=
      ⟨.created, Function.update_self .., rfl⟩
    refine ⟨fun id t htask ↦ ?_, fun every id ↦ ?_, fun every id ⟨stage, htask, hdone⟩ ↦ ?_,
      fun other hother ↦ ?_, fun id every other rest htask ↦ ?_, fun r hr hasked ↦ ?_, fun r hr hpassing ↦ ?_,
      hreturned⟩
    · rcases hold id t htask with ⟨rfl, -⟩ | htask
      · exact Nat.lt_succ_self _
      · exact (hs.tasks_lt id t htask).trans (Nat.lt_succ_self _)
    · intro (hid : Function.update s.releasers (isEvery target) (some s.created) every = some id)
      by_cases hevery : every = isEvery target
      · subst hevery
        rw [Function.update_self] at hid
        obtain rfl := Option.some.inj hid
        exact ⟨.created, Function.update_self ..⟩
      · rw [Function.update_of_ne hevery] at hid
        obtain ⟨stage, htask⟩ := hs.releasers every id hid
        exact ⟨stage, hkept id _ htask⟩
    · rcases hold id _ htask with ⟨rfl, heq⟩ | htask
      · obtain ⟨rfl, rfl⟩ := Releaser.mk.inj heq
        exact Function.update_self ..
      · have hne : every ≠ isEvery target := by
          rintro rfl
          exact hnone id ⟨stage, htask, hdone⟩
        exact (Function.update_of_ne hne ..).trans (hs.current every id ⟨stage, htask, hdone⟩)
    · by_cases hevery : isEvery other = isEvery target
      · exact ⟨s.created, hevery ▸ hcreated⟩
      · have hmem : other ∈ s.releasePending :=
          (Finset.mem_insert.mp hother).resolve_left fun heq ↦ hevery (congrArg isEvery heq)
        obtain ⟨id, stage, htask, hdone⟩ := hs.pending other hmem
        exact ⟨id, stage, hkept id _ htask, hdone⟩
    · rcases hold id _ htask with ⟨-, heq⟩ | htask
      · exact nomatch (Releaser.mk.inj heq).2
      · exact hs.kinds id every other rest htask
    · rcases List.mem_append.mp hr with hr | hr
      · rcases hs.asked r hr hasked with hmem | ⟨id, current, rest, htask, hmem⟩
        · exact .inl (Finset.mem_insert_of_mem hmem)
        · exact .inr ⟨id, current, rest, hkept id _ htask, hmem⟩
      · rw [List.mem_singleton.mp hr]
        exact .inl (Finset.mem_insert_self target _)
    · rcases List.mem_append.mp hr with hr | hr
      · obtain ⟨id, rest, htask⟩ := hs.passing r hr hpassing
        exact ⟨id, rest, hkept id _ htask⟩
      · rw [List.mem_singleton.mp hr] at hpassing
        cases hpassing

/-! ### Passes -/

theorem moved_target (old new : Progress) (r : Request Batch) : (r.moved target old new).target = r.target := by
  unfold Request.moved
  split_ifs <;> rfl

theorem moved_progress (old new : Progress) (r : Request Batch) :
    (r.target = target ∧ r.progress = old ∧ (r.moved target old new).progress = new) ∨
      (¬ (r.target = target ∧ r.progress = old) ∧ r.moved target old new = r) := by
  unfold Request.moved
  split_ifs with h
  · exact .inl ⟨h.1, h.2, rfl⟩
  · exact .inr ⟨h, rfl⟩

/-- Requests move on, and calls of `released` that returned still have theirs passed. -/
theorem Sound.returned_move (hs : s.Sound) {old new : Progress} (hold : old ≠ .passed) (call : ℕ) (w : Wait)
    (hw : s.waits call = some w) : w.before ≤ (s.move target old new).requests.length ∧
      (w.returned = true → ∀ r ∈ (s.move target old new).requests.take w.before, r.progress = .passed) := by
  obtain ⟨hbefore, hpassed⟩ := hs.returned call w hw
  refine ⟨by rwa [Loop.move, List.length_map], fun hreturned r hr ↦ ?_⟩
  rw [Loop.move, ← List.map_take] at hr
  obtain ⟨r, hmem, rfl⟩ := List.mem_map.mp hr
  have hprogress := hpassed hreturned r hmem
  rcases moved_progress old new r with ⟨-, heq, -⟩ | ⟨-, heq⟩
  · exact absurd (heq.symm.trans hprogress) hold
  · rw [heq, hprogress]

/-- The end of a pass. -/
theorem Sound.finish (hs : s.Sound) (htask : s.tasks id = some ⟨every, .releasing target rest⟩) :
    (s.move target .passing .passed).Sound ∧
      ∀ r ∈ (s.move target .passing .passed).requests, r.progress = .passing → isEvery r.target ≠ every := by
  have hkind := (hs.kinds id every target rest htask).1
  refine ⟨⟨hs.tasks_lt, hs.releasers, hs.current, hs.pending, hs.kinds, fun r hr hasked ↦ ?_,
    fun r hr hpassing ↦ ?_, hs.returned_move (by decide)⟩, fun r hr hpassing hevery ↦ ?_⟩
  · obtain ⟨r, hbefore, rfl⟩ := List.mem_map.mp hr
    rcases moved_progress .passing .passed r with ⟨-, -, heq⟩ | ⟨-, heq⟩
    · rw [heq] at hasked; cases hasked
    · rw [heq] at hasked ⊢
      exact hs.asked r hbefore hasked
  · obtain ⟨r, hbefore, rfl⟩ := List.mem_map.mp hr
    rcases moved_progress .passing .passed r with ⟨-, -, heq⟩ | ⟨-, heq⟩
    · rw [heq] at hpassing; cases hpassing
    · rw [heq] at hpassing ⊢
      exact hs.passing r hbefore hpassing
  · obtain ⟨r, hbefore, rfl⟩ := List.mem_map.mp hr
    rcases moved_progress .passing .passed r with ⟨-, -, heq⟩ | ⟨hnot, heq⟩
    · rw [heq] at hpassing; cases hpassing
    · rw [heq] at hpassing hevery
      obtain ⟨id', rest', htask'⟩ := hs.passing r hbefore hpassing
      rw [hevery] at htask'
      obtain rfl := hs.task_eq ⟨_, htask, rfl⟩ ⟨_, htask', rfl⟩
      rw [htask] at htask'
      obtain ⟨-, heq⟩ := Releaser.mk.inj (Option.some.inj htask')
      exact hnot ⟨(Stage.releasing.inj heq).1.symm, hpassing⟩

/-- Assumes: an unfinished task between two passes, which takes targets of its kind, so that those that are
asked for are pending or taken. -/
theorem Sound.begin (hs : s.Sound) (hworks : s.Works every id)
    (hidle : ∀ r ∈ s.requests, r.progress = .passing → isEvery r.target ≠ every) (htarget : isEvery target = every)
    (hrest : ∀ other ∈ rest, isEvery other = every) {pending : Finset (Target Batch)}
    (hsubset : pending ⊆ s.releasePending)
    (hother : ∀ other ∈ s.releasePending, isEvery other ≠ every → other ∈ pending)
    (htaken : ∀ r ∈ s.requests, r.progress = .asked → isEvery r.target = every →
      r.target ∈ pending ∨ r.target = target ∨ r.target ∈ rest) :
    (begin id every target rest { s with releasePending := pending }).Sound := by
  obtain ⟨stage, htask, hdone⟩ := hworks
  have hself : Function.update s.tasks id (some ⟨every, .releasing target rest⟩) id =
      some ⟨every, .releasing target rest⟩ := Function.update_self ..
  have hold : ∀ id' t, Function.update s.tasks id (some ⟨every, .releasing target rest⟩) id' = some t →
      (id' = id ∧ t = ⟨every, .releasing target rest⟩) ∨ (id' ≠ id ∧ s.tasks id' = some t) := by
    intro id' t htask'
    by_cases hid : id' = id
    · subst hid
      exact .inl ⟨rfl, Option.some.inj (htask'.symm.trans hself)⟩
    · exact .inr ⟨hid, (Function.update_of_ne hid ..).symm.trans htask'⟩
  have hkept : ∀ id' every' stage', every' ≠ every → s.tasks id' = some ⟨every', stage'⟩ →
      Function.update s.tasks id (some ⟨every, .releasing target rest⟩) id' = some ⟨every', stage'⟩ := by
    intro id' every' stage' hne htask'
    refine (Function.update_of_ne ?_ ..).trans htask'
    rintro rfl
    rw [htask] at htask'
    exact hne (Releaser.mk.inj (Option.some.inj htask')).1.symm
  refine ⟨fun id' t htask' ↦ ?_, fun every' id' hid ↦ ?_, fun every' id' ⟨stage', htask', hdone'⟩ ↦ ?_,
    fun other hmem ↦ ?_, fun id' every' other rest' htask' ↦ ?_, fun r hr hasked ↦ ?_, fun r hr hpassing ↦ ?_,
    hs.returned_move (by decide)⟩
  · rcases hold id' t htask' with ⟨rfl, -⟩ | ⟨-, htask'⟩
    · exact hs.tasks_lt _ _ htask
    · exact hs.tasks_lt id' t htask'
  · obtain ⟨stage', htask'⟩ := hs.releasers every' id' hid
    by_cases heq : id' = id
    · subst heq
      rw [htask] at htask'
      obtain ⟨rfl, rfl⟩ := Releaser.mk.inj (Option.some.inj htask')
      exact ⟨_, hself⟩
    · exact ⟨stage', (Function.update_of_ne heq ..).trans htask'⟩
  · rcases hold id' _ htask' with ⟨rfl, heq⟩ | ⟨-, htask'⟩
    · obtain ⟨rfl, -⟩ := Releaser.mk.inj heq
      exact hs.current every' id' ⟨stage, htask, hdone⟩
    · exact hs.current every' id' ⟨stage', htask', hdone'⟩
  · by_cases heq : isEvery other = every
    · subst heq
      exact ⟨id, _, hself, rfl⟩
    · obtain ⟨id', stage', htask', hdone'⟩ := hs.pending other (hsubset hmem)
      exact ⟨id', stage', hkept id' _ stage' heq htask', hdone'⟩
  · rcases hold id' _ htask' with ⟨rfl, heq⟩ | ⟨-, htask'⟩
    · obtain ⟨rfl, hstage⟩ := Releaser.mk.inj heq
      obtain ⟨rfl, rfl⟩ := Stage.releasing.inj hstage
      exact ⟨htarget, hrest⟩
    · exact hs.kinds id' every' other rest' htask'
  · obtain ⟨r, hbefore, rfl⟩ := List.mem_map.mp hr
    rcases moved_progress .asked .passing r with ⟨-, -, heq⟩ | ⟨hnot, heq⟩
    · rw [heq] at hasked; cases hasked
    · rw [heq] at hasked ⊢
      have hne : r.target ≠ target := fun h ↦ hnot ⟨h, hasked⟩
      by_cases hevery : isEvery r.target = every
      · rcases htaken r hbefore hasked hevery with hmem | heq | hmem
        · exact .inl hmem
        · exact absurd heq hne
        · exact .inr ⟨id, target, rest, hevery ▸ hself, hmem⟩
      · rcases hs.asked r hbefore hasked with hmem | ⟨id', current, rest', htask', hmem⟩
        · exact .inl (hother r.target hmem hevery)
        · exact .inr ⟨id', current, rest', hkept id' _ _ hevery htask', hmem⟩
  · obtain ⟨r, hbefore, rfl⟩ := List.mem_map.mp hr
    rw [moved_target]
    rcases moved_progress .asked .passing r with ⟨(heq : r.target = target), -, -⟩ | ⟨-, heq⟩
    · refine ⟨id, rest, ?_⟩
      rw [heq, htarget]
      exact hself
    · rw [heq] at hpassing
      obtain ⟨id', rest', htask'⟩ := hs.passing r hbefore hpassing
      exact ⟨id', rest', hkept id' _ _ (hidle r hbefore hpassing) htask'⟩

omit [DecidableEq Batch] in
theorem mem_pendingOf [DecidableEq Batch] {other : Target Batch} :
    other ∈ s.pendingOf every ↔ other ∈ s.releasePending ∧ isEvery other = every := Finset.mem_filter

/-- The end of a task that finds nothing pending. -/
theorem Sound.setDone (hs : s.Sound) (hworks : s.Works every id)
    (hidle : ∀ r ∈ s.requests, r.progress = .passing → isEvery r.target ≠ every)
    (hasked : ∀ r ∈ s.requests, r.progress = .asked → isEvery r.target = every → r.target ∈ s.releasePending)
    (hempty : s.pendingOf every = ∅) : (s.setTask id ⟨every, .done⟩).Sound := by
  obtain ⟨stage, htask, hdone⟩ := hworks
  have hnone : ∀ other ∈ s.releasePending, isEvery other ≠ every := fun other hmem hevery ↦ by
    have hother := mem_pendingOf.mpr ⟨hmem, hevery⟩
    rw [hempty] at hother
    cases hother
  have hold : ∀ id' t, Function.update s.tasks id (some ⟨every, .done⟩) id' = some t →
      (id' = id ∧ t = ⟨every, .done⟩) ∨ s.tasks id' = some t := by
    intro id' t htask'
    by_cases hid : id' = id
    · subst hid
      rw [Function.update_self] at htask'
      exact .inl ⟨rfl, (Option.some.inj htask').symm⟩
    · exact .inr ((Function.update_of_ne hid ..).symm.trans htask')
  have hkept : ∀ id' every' stage', every' ≠ every → s.tasks id' = some ⟨every', stage'⟩ →
      Function.update s.tasks id (some ⟨every, .done⟩) id' = some ⟨every', stage'⟩ := by
    intro id' every' stage' hne htask'
    refine (Function.update_of_ne ?_ ..).trans htask'
    rintro rfl
    rw [htask] at htask'
    exact hne (Releaser.mk.inj (Option.some.inj htask')).1.symm
  refine ⟨fun id' t htask' ↦ ?_, fun every' id' hid ↦ ?_, fun every' id' ⟨stage', htask', hdone'⟩ ↦ ?_,
    fun other hmem ↦ ?_, fun id' every' other rest' htask' ↦ ?_, fun r hr hwaits ↦ ?_, fun r hr hpassing ↦ ?_,
    hs.returned⟩
  · rcases hold id' t htask' with ⟨rfl, -⟩ | htask'
    · exact hs.tasks_lt _ _ htask
    · exact hs.tasks_lt id' t htask'
  · obtain ⟨stage', htask'⟩ := hs.releasers every' id' hid
    by_cases heq : id' = id
    · subst heq
      rw [htask] at htask'
      obtain ⟨rfl, rfl⟩ := Releaser.mk.inj (Option.some.inj htask')
      exact ⟨_, Function.update_self ..⟩
    · exact ⟨stage', (Function.update_of_ne heq ..).trans htask'⟩
  · rcases hold id' _ htask' with ⟨rfl, heq⟩ | htask'
    · obtain ⟨-, rfl⟩ := Releaser.mk.inj heq
      cases hdone'
    · exact hs.current every' id' ⟨stage', htask', hdone'⟩
  · obtain ⟨id', stage', htask', hdone'⟩ := hs.pending other hmem
    exact ⟨id', stage', hkept id' _ stage' (hnone other hmem) htask', hdone'⟩
  · rcases hold id' _ htask' with ⟨-, heq⟩ | htask'
    · exact nomatch (Releaser.mk.inj heq).2
    · exact hs.kinds id' every' other rest' htask'
  · have hne : isEvery r.target ≠ every := fun hevery ↦ hnone r.target (hasked r hr hwaits hevery) hevery
    rcases hs.asked r hr hwaits with hmem | ⟨id', current, rest', htask', hmem⟩
    · exact .inl hmem
    · exact .inr ⟨id', current, rest', hkept id' _ _ hne htask', hmem⟩
  · obtain ⟨id', rest', htask'⟩ := hs.passing r hr hpassing
    exact ⟨id', rest', hkept id' _ _ (hidle r hr hpassing) htask'⟩

/-- Assumes: an unfinished task with no targets left. -/
theorem Sound.turn (hs : s.Sound) (hworks : s.Works every id)
    (hidle : ∀ r ∈ s.requests, r.progress = .passing → isEvery r.target ≠ every)
    (hasked : ∀ r ∈ s.requests, r.progress = .asked → isEvery r.target = every → r.target ∈ s.releasePending)
    (hturn : s.turn id every next = some s') : s'.Sound := by
  unfold Loop.turn at hturn
  split_ifs at hturn with hempty hnext
  · obtain rfl := Option.some.inj hturn
    exact hs.setDone hworks hidle hasked hempty
  · obtain rfl := Option.some.inj hturn
    refine hs.begin hworks hidle (mem_pendingOf.mp hnext).2 (fun other hmem ↦ ?_) Finset.sdiff_subset
      (fun other hmem hevery ↦ ?_) (fun r hr hwaits hevery ↦ ?_)
    · exact (mem_pendingOf.mp (Finset.mem_of_mem_erase hmem)).2
    · exact Finset.mem_sdiff.mpr ⟨hmem, fun hof ↦ hevery (mem_pendingOf.mp hof).2⟩
    · have hof := mem_pendingOf.mpr ⟨hasked r hr hwaits hevery, hevery⟩
      by_cases heq : r.target = next
      · exact .inr (.inl heq)
      · exact .inr (.inr (Finset.mem_erase.mpr ⟨heq, hof⟩))

/-! ### Calls of `released` -/

omit [DecidableEq Batch] in
/-- Nothing is asked for any more when no task is unfinished. -/
theorem Sound.passed_of_running (hs : s.Sound) (hnone : s.running = []) : ∀ r ∈ s.requests, r.progress = .passed := by
  have hidle : ∀ every id, ¬ s.Works every id := by
    intro every id hworks
    have hmem : id ∈ s.running := by
      refine List.mem_filter.mpr ⟨List.mem_filterMap.mpr ⟨every, ?_, hs.current every id hworks⟩,
        unfinished_iff.mpr ⟨every, hworks⟩⟩
      cases every <;> simp
    rw [hnone] at hmem
    cases hmem
  intro r hr
  cases hprogress : r.progress with
  | passed => rfl
  | asked =>
    rcases hs.asked r hr hprogress with hmem | ⟨id, current, rest, htask, -⟩
    · obtain ⟨id, hworks⟩ := hs.pending r.target hmem
      exact absurd hworks (hidle _ id)
    · exact absurd ⟨_, htask, rfl⟩ (hidle _ id)
  | passing =>
    obtain ⟨id, rest, htask⟩ := hs.passing r hr hprogress
    exact absurd ⟨_, htask, rfl⟩ (hidle _ id)

omit [DecidableEq Batch] in
theorem Sound.wait (hs : s.Sound) (call : ℕ) {before : ℕ} (hbefore : before ≤ s.requests.length) :
    (s.wait call before).Sound := by
  refine ⟨hs.tasks_lt, hs.releasers, hs.current, hs.pending, hs.kinds, hs.asked, hs.passing, fun call' w hw ↦ ?_⟩
  have hw : Function.update s.waits call (some ⟨before, s.running, s.running.isEmpty⟩) call' = some w := hw
  by_cases hcall : call' = call
  · subst hcall
    rw [Function.update_self] at hw
    obtain rfl := Option.some.inj hw
    exact ⟨hbefore, fun hreturned r hr ↦
      hs.passed_of_running (List.isEmpty_iff.mp hreturned) r (List.mem_of_mem_take hr)⟩
  · rw [Function.update_of_ne hcall] at hw
    exact hs.returned call' w hw

end Loop

open Loop

variable {s s' : Loop Batch} {id : ℕ} {every : Bool} {target : Target Batch} {rest : Finset (Target Batch)}

theorem turn_cases {next : Target Batch} (h : s.turn id every next = some s') :
    (s.pendingOf every = ∅ ∧ s' = s.setTask id ⟨every, .done⟩) ∨
      (next ∈ s.pendingOf every ∧ s' = begin id every next ((s.pendingOf every).erase next)
        { s with releasePending := s.releasePending \ s.pendingOf every }) := by
  unfold Loop.turn at h
  split_ifs at h with hempty hnext
  · exact .inl ⟨hempty, (Option.some.inj h).symm⟩
  · exact .inr ⟨hnext, (Option.some.inj h).symm⟩

/-- A task goes on at its beginning, after the last pass of a turn or after another one. -/
theorem step_go {next : Target Batch} (h : step s (.go id next) = some s') :
    (∃ every, s.tasks id = some ⟨every, .created⟩ ∧ s.turn id every next = some s') ∨
      (∃ every target, s.tasks id = some ⟨every, .releasing target ∅⟩ ∧
        (s.move target .passing .passed).turn id every next = some s') ∨
      ∃ every target rest, s.tasks id = some ⟨every, .releasing target rest⟩ ∧ next ∈ rest ∧
        s' = (s.move target .passing .passed).begin id every next (rest.erase next) := by
  rw [step] at h
  split at h
  · exact .inl ⟨_, ‹_›, h⟩
  · rename_i every target rest htask
    dsimp only at h
    split_ifs at h with hempty hnext
    · subst hempty
      exact .inr (.inl ⟨every, target, htask, h⟩)
    · exact .inr (.inr ⟨every, target, rest, htask, hnext, (Option.some.inj h).symm⟩)
  · cases h

/-- The requests that are left when the pass of a task ends. -/
theorem Loop.Sound.asked_finish (hs : s.Sound) (htask : s.tasks id = some ⟨every, .releasing target rest⟩)
    {r : Request Batch} (hr : r ∈ (s.move target .passing .passed).requests) (hasked : r.progress = .asked)
    (hevery : isEvery r.target = every) : r.target ∈ s.releasePending ∨ r.target ∈ rest := by
  obtain ⟨hfinished, -⟩ := hs.finish htask
  rcases hfinished.asked r hr hasked with hmem | ⟨id', current, rest', htask', hmem⟩
  · exact .inl hmem
  · have htask' : s.tasks id' = some ⟨isEvery r.target, .releasing current rest'⟩ := htask'
    obtain rfl := hs.task_eq ⟨_, htask, rfl⟩ ⟨_, hevery ▸ htask', rfl⟩
    rw [htask] at htask'
    obtain ⟨-, heq⟩ := Releaser.mk.inj (Option.some.inj htask')
    exact .inr ((Stage.releasing.inj heq).2 ▸ hmem)

omit [DecidableEq Batch] in
/-- A task that has not begun makes no pass and has no targets. -/
theorem Loop.Sound.of_created (hs : s.Sound) (htask : s.tasks id = some ⟨every, .created⟩) :
    (∀ r ∈ s.requests, r.progress = .passing → isEvery r.target ≠ every) ∧
      ∀ r ∈ s.requests, r.progress = .asked → isEvery r.target = every → r.target ∈ s.releasePending := by
  have hno : ∀ id' current rest, s.tasks id' ≠ some ⟨every, .releasing current rest⟩ := by
    intro id' current rest htask'
    obtain rfl := hs.task_eq ⟨_, htask, rfl⟩ ⟨_, htask', rfl⟩
    rw [htask] at htask'
    exact nomatch (Releaser.mk.inj (Option.some.inj htask')).2
  refine ⟨fun r hr hpassing hevery ↦ ?_, fun r hr hasked hevery ↦ ?_⟩
  · obtain ⟨id', rest, htask'⟩ := hs.passing r hr hpassing
    exact hno id' _ rest (hevery ▸ htask')
  · rcases hs.asked r hr hasked with hmem | ⟨id', current, rest, htask', -⟩
    · exact hmem
    · exact absurd (hevery ▸ htask') (hno id' current rest)

/-- Every event keeps the invariant. -/
theorem Loop.Sound.step (hs : s.Sound) {event : Event Batch} (hstep : step s event = some s') : s'.Sound := by
  cases event with
  | request target =>
    obtain rfl := Option.some.inj hstep
    exact hs.requestRelease target
  | go id next =>
    rcases step_go hstep with ⟨every, htask, hturn⟩ | ⟨every, target, htask, hturn⟩ |
      ⟨every, target, rest, htask, hnext, rfl⟩
    · obtain ⟨hidle, hasked⟩ := hs.of_created htask
      exact hs.turn ⟨_, htask, rfl⟩ hidle hasked hturn
    · obtain ⟨hfinished, hidle⟩ := hs.finish htask
      refine hfinished.turn ⟨_, htask, rfl⟩ hidle (fun r hr hasked hevery ↦ ?_) hturn
      exact (hs.asked_finish htask hr hasked hevery).resolve_right (Finset.notMem_empty _)
    · obtain ⟨hfinished, hidle⟩ := hs.finish htask
      have hkinds := (hs.kinds id every target rest htask).2
      refine hfinished.begin ⟨_, htask, rfl⟩ hidle (hkinds next hnext) (fun other hmem ↦ ?_) (subset_refl _)
        (fun other hmem _ ↦ hmem) (fun r hr hasked hevery ↦ ?_)
      · exact hkinds other (Finset.mem_of_mem_erase hmem)
      · refine (hs.asked_finish htask hr hasked hevery).imp_right fun hmem ↦ ?_
        by_cases heq : r.target = next
        · exact .inl heq
        · exact .inr (Finset.mem_erase.mpr ⟨heq, hmem⟩)
  | released call =>
    rw [ReleaseRequests.step] at hstep
    split_ifs at hstep
    obtain rfl := Option.some.inj hstep
    exact hs.wait call le_rfl
  | resumed call =>
    rw [ReleaseRequests.step] at hstep
    split at hstep
    · rename_i w hw
      split_ifs at hstep
      obtain rfl := Option.some.inj hstep
      exact hs.wait call (hs.returned call w hw).1
    · cases hstep

theorem sound_initial : (releaseRequests Batch).initial.Sound where
  tasks_lt _ _ h := nomatch h
  releasers _ _ h := nomatch h
  current _ _ h := by obtain ⟨_, h, -⟩ := h; cases h
  pending _ h := nomatch h
  kinds _ _ _ _ h := nomatch h
  asked _ h := nomatch h
  passing _ h := nomatch h
  returned _ _ h := nomatch h

theorem sound_of_reachable (h : (releaseRequests Batch).Reachable s) : s.Sound :=
  h.invariant sound_initial fun _ _ _ _ hs hstep ↦ hs.step hstep

/-! ### Every request is passed -/

omit [DecidableEq Batch] in
theorem Loop.Works.task_lt (hs : s.Sound) (h : s.Works every id) : id < s.created := by
  obtain ⟨stage, htask, -⟩ := h
  exact hs.tasks_lt _ _ htask

theorem moved_of_ne {r : Request Batch} {old new : Progress} (h : r.target ≠ target) : r.moved target old new = r :=
  if_neg fun hboth ↦ h hboth.1

theorem moved_of_progress_ne {r : Request Batch} {old new : Progress} (h : r.progress ≠ old) :
    r.moved target old new = r :=
  if_neg fun hboth ↦ h hboth.2

variable {n : ℕ} {r : Request Batch}

theorem getElem?_moved {requests : List (Request Batch)} (target : Target Batch) (old new : Progress)
    (h : requests[n]? = some r) :
    (requests.map (Request.moved target old new))[n]? = some (r.moved target old new) := by
  rw [List.getElem?_map, h]
  rfl

theorem getElem?_unmoved {requests : List (Request Batch)} (old new : Progress) (h : requests[n]? = some r)
    (hne : r.target ≠ target) : (requests.map (Request.moved target old new))[n]? = some r :=
  (getElem?_moved _ _ _ h).trans (congrArg some (moved_of_ne hne))

/-- Assumes: a task that is not done. What another event does leaves the task, and the requests of its kind as
they are. -/
theorem frame_step (hs : s.Sound) (hworks : s.Works every id) (hkind : isEvery r.target = every)
    (hrequest : s.requests[n]? = some r) {event : Event Batch} (hevent : ∀ next, event ≠ .go id next)
    (hstep : step s event = some s') : s'.tasks id = s.tasks id ∧ s'.requests[n]? = some r := by
  have hother : ∀ id' every' stage, s.tasks id' = some ⟨every', stage⟩ → stage.isDone = false → id' ≠ id →
      every' ≠ every := by
    rintro id' every' stage htask hdone hne rfl
    exact hne (hs.task_eq ⟨stage, htask, hdone⟩ hworks)
  have hlt : n < s.requests.length := (List.getElem?_eq_some_iff.mp hrequest).1
  cases event with
  | request target =>
    obtain rfl := Option.some.inj hstep
    have hkept : (s.requests ++ [(⟨target, .asked⟩ : Request Batch)])[n]? = some r := by
      rw [List.getElem?_append_left hlt, hrequest]
    unfold Loop.requestRelease
    dsimp only
    split_ifs
    · exact ⟨rfl, hkept⟩
    · exact ⟨Function.update_of_ne (hworks.task_lt hs).ne .., hkept⟩
  | go id' next =>
    have hne : id' ≠ id := fun heq ↦ hevent next (heq ▸ rfl)
    have htasks (t : Releaser Batch) : Function.update s.tasks id' (some t) id = s.tasks id :=
      Function.update_of_ne hne.symm ..
    rcases step_go hstep with ⟨every', htask, hturn⟩ | ⟨every', target, htask, hturn⟩ |
      ⟨every', target, rest, htask, hnext, rfl⟩
    · have hkinds := hother id' every' _ htask rfl hne
      rcases turn_cases hturn with ⟨-, rfl⟩ | ⟨hnext, rfl⟩
      · exact ⟨htasks _, hrequest⟩
      · refine ⟨htasks _, getElem?_unmoved .asked .passing hrequest ?_⟩
        rintro rfl
        exact hkinds ((mem_pendingOf.mp hnext).2.symm.trans hkind)
    · have hkinds := hother id' every' _ htask rfl hne
      have htarget : r.target ≠ target := by
        rintro rfl
        exact hkinds ((hs.kinds id' every' _ _ htask).1.symm.trans hkind)
      have hmoved := getElem?_unmoved .passing .passed hrequest htarget
      rcases turn_cases hturn with ⟨-, rfl⟩ | ⟨hnext, rfl⟩
      · exact ⟨htasks _, hmoved⟩
      · refine ⟨htasks _, getElem?_unmoved .asked .passing hmoved ?_⟩
        rintro rfl
        exact hkinds ((mem_pendingOf.mp hnext).2.symm.trans hkind)
    · have hkinds := hother id' every' _ htask rfl hne
      obtain ⟨hkind', hrest⟩ := hs.kinds id' every' target rest htask
      have htarget : r.target ≠ target := by
        rintro rfl
        exact hkinds (hkind'.symm.trans hkind)
      have hmoved := getElem?_unmoved .passing .passed hrequest htarget
      refine ⟨htasks _, getElem?_unmoved .asked .passing hmoved ?_⟩
      rintro rfl
      exact hkinds ((hrest _ hnext).symm.trans hkind)
  | released call =>
    rw [step] at hstep
    split_ifs at hstep
    obtain rfl := Option.some.inj hstep
    exact ⟨rfl, hrequest⟩
  | resumed call =>
    rw [step] at hstep
    split at hstep
    · split_ifs at hstep
      obtain rfl := Option.some.inj hstep
      exact ⟨rfl, hrequest⟩
    · cases hstep

/-- How far a task is from a target: whether it is left of the turn, and the targets left. -/
def Loop.ahead (s : Loop Batch) (id : ℕ) (target : Target Batch) : ℕ ×ₗ ℕ :=
  match s.tasks id with
  | some ⟨_, .releasing _ rest⟩ => toLex (if target ∈ rest then 0 else 1, rest.card)
  | _ => toLex (1, 0)

theorem ahead_of_releasing (htask : s.tasks id = some ⟨every, .releasing target rest⟩) (other : Target Batch) :
    s.ahead id other = toLex (if other ∈ rest then 0 else 1, rest.card) := by
  rw [Loop.ahead, htask]

theorem ahead_of_created (htask : s.tasks id = some ⟨every, .created⟩) (other : Target Batch) :
    s.ahead id other = toLex (1, 0) := by
  rw [Loop.ahead, htask]

/-- A pass begins: it is for a request, or leaves the request asked. -/
theorem asked_begin (hasked : r.progress = .asked) (hrequest : s.requests[n]? = some r) :
    (s.begin id every target rest).requests[n]? = some { r with progress := .passing } ∨
      r.target ≠ target ∧ (s.begin id every target rest).requests[n]? = some r := by
  by_cases htarget : r.target = target
  · refine .inl ((getElem?_moved _ _ _ hrequest).trans (congrArg some ?_))
    exact if_pos ⟨htarget, hasked⟩
  · exact .inr ⟨htarget, getElem?_unmoved .asked .passing hrequest htarget⟩

/-- Assumes: a target that is pending. After the head of the loop, its request is being passed or its target is
left of the turn. -/
theorem asked_turn {next : Target Batch} (hasked : r.progress = .asked) (hrequest : s.requests[n]? = some r)
    (hmem : r.target ∈ s.pendingOf every) (hturn : s.turn id every next = some s') :
    s'.requests[n]? = some { r with progress := .passing } ∨
      s'.requests[n]? = some r ∧ ∃ rest, s'.tasks id = some ⟨every, .releasing next rest⟩ ∧ r.target ∈ rest := by
  rcases turn_cases hturn with ⟨hempty, -⟩ | ⟨-, rfl⟩
  · rw [hempty] at hmem
    cases hmem
  · have hpending : { s with releasePending := s.releasePending \ s.pendingOf every }.requests[n]? = some r := hrequest
    refine (asked_begin hasked hpending).imp_right fun ⟨hne, hkept⟩ ↦ ⟨hkept, _, Function.update_self .., ?_⟩
    exact Finset.mem_erase.mpr ⟨hne, hmem⟩

/-- The task of a request that is asked goes on: the pass for it begins, or the task is nearer to it. -/
theorem ahead_lt (hs : s.Sound) {next : Target Batch} (hworks : s.Works (isEvery r.target) id)
    (hasked : r.progress = .asked) (hrequest : s.requests[n]? = some r)
    (hstep : step s (.go id next) = some s') : s'.requests[n]? = some { r with progress := .passing } ∨
      s'.requests[n]? = some r ∧ s'.Works (isEvery r.target) id ∧ s'.ahead id r.target < s.ahead id r.target := by
  have hmem := List.mem_of_getElem? hrequest
  have hnear : ∀ {t : Loop Batch} {rest : Finset (Target Batch)},
      t.tasks id = some ⟨isEvery r.target, .releasing next rest⟩ → r.target ∈ rest →
        ∀ m, t.ahead id r.target < toLex (1, m) := by
    intro t rest htask hrest m
    rw [ahead_of_releasing htask, if_pos hrest]
    exact Prod.Lex.toLex_lt_toLex.mpr (.inl Nat.zero_lt_one)
  rcases step_go hstep with ⟨every, htask, hturn⟩ | ⟨every, target, htask, hturn⟩ |
    ⟨every, target, rest, htask, hnext, rfl⟩
  · obtain ⟨rfl, -⟩ := hworks.eq htask
    have hpending := (hs.of_created htask).2 r hmem hasked rfl
    refine (asked_turn hasked hrequest (mem_pendingOf.mpr ⟨hpending, rfl⟩) hturn).imp_right ?_
    rintro ⟨hkept, rest, htask', hrest⟩
    rw [ahead_of_created htask]
    exact ⟨hkept, ⟨_, htask', rfl⟩, hnear htask' hrest 0⟩
  · obtain ⟨rfl, -⟩ := hworks.eq htask
    have hmoved := getElem?_moved target .passing .passed hrequest
    have hsame : r.moved target .passing .passed = r := moved_of_progress_ne (by rw [hasked]; decide)
    rw [hsame] at hmoved
    have hpending := (hs.asked_finish htask (List.mem_of_getElem? hmoved) hasked rfl).resolve_right
      (Finset.notMem_empty _)
    have hof : r.target ∈ (s.move target .passing .passed).pendingOf (isEvery r.target) :=
      mem_pendingOf.mpr ⟨hpending, rfl⟩
    refine (asked_turn hasked hmoved hof hturn).imp_right ?_
    rintro ⟨hkept, rest, htask', hrest⟩
    rw [ahead_of_releasing htask, if_neg (Finset.notMem_empty _)]
    exact ⟨hkept, ⟨_, htask', rfl⟩, hnear htask' hrest _⟩
  · obtain ⟨rfl, -⟩ := hworks.eq htask
    have hmoved := getElem?_moved target .passing .passed hrequest
    have hsame : r.moved target .passing .passed = r := moved_of_progress_ne (by rw [hasked]; decide)
    rw [hsame] at hmoved
    have hmoved : (s.move target .passing .passed).requests[n]? = some r := hmoved
    refine (asked_begin hasked hmoved).imp_right fun ⟨hne, hkept⟩ ↦ ⟨hkept, ⟨_, Function.update_self .., rfl⟩, ?_⟩
    have hcard : (rest.erase next).card < rest.card := Finset.card_erase_lt_of_mem hnext
    have htask' : ((s.move target .passing .passed).begin id (isEvery r.target) next (rest.erase next)).tasks id =
        some ⟨isEvery r.target, .releasing next (rest.erase next)⟩ := Function.update_self ..
    rw [ahead_of_releasing htask, ahead_of_releasing htask', Prod.Lex.toLex_lt_toLex]
    refine .inr ⟨?_, hcard⟩
    simp [Finset.mem_erase, hne]

/-- The task of a request that is being passed goes on: the request is passed. -/
theorem passing_go (hs : s.Sound) {next : Target Batch} (hpassing : r.progress = .passing)
    (hrequest : s.requests[n]? = some r) (hworks : s.Works (isEvery r.target) id)
    (hstep : step s (.go id next) = some s') : s'.requests[n]? = some { r with progress := .passed } := by
  obtain ⟨id', rest', htask'⟩ := hs.passing r (List.mem_of_getElem? hrequest) hpassing
  obtain rfl := hs.task_eq hworks ⟨_, htask', rfl⟩
  have hmoved := getElem?_moved r.target .passing .passed hrequest
  have hpassed : r.moved r.target .passing .passed = { r with progress := .passed } := if_pos ⟨rfl, hpassing⟩
  rw [hpassed] at hmoved
  have hbegun : ∀ {requests : List (Request Batch)} {other : Target Batch},
      requests[n]? = some { r with progress := .passed } →
        (requests.map (Request.moved other .asked .passing))[n]? = some { r with progress := .passed } :=
    fun h ↦ (getElem?_moved _ _ _ h).trans (congrArg some (moved_of_progress_ne fun hasked ↦ nomatch hasked))
  rcases step_go hstep with ⟨every, htask, -⟩ | ⟨every, target, htask, hturn⟩ | ⟨every, target, rest, htask, -, rfl⟩
  · rw [htask'] at htask
    exact nomatch (Releaser.mk.inj (Option.some.inj htask)).2
  · rw [htask'] at htask
    obtain ⟨-, heq⟩ := Releaser.mk.inj (Option.some.inj htask)
    obtain ⟨rfl, -⟩ := Stage.releasing.inj heq
    rcases turn_cases hturn with ⟨-, rfl⟩ | ⟨-, rfl⟩
    · exact hmoved
    · exact hbegun hmoved
  · rw [htask'] at htask
    obtain ⟨-, heq⟩ := Releaser.mk.inj (Option.some.inj htask)
    obtain ⟨rfl, -⟩ := Stage.releasing.inj heq
    exact hbegun hmoved

/-- An endless run in which nothing may happen for a while. Every task that is not done goes on: the event loop
gets to it, and no pass takes forever. -/
structure Fair (states : ℕ → Loop Batch) (events : ℕ → Option (Event Batch)) : Prop where
  next : ∀ i, (∃ event, events i = some event ∧ step (states i) event = some (states (i + 1))) ∨
    events i = none ∧ states (i + 1) = states i
  goes : ∀ i id, (states i).unfinished id = true → ∃ j, i ≤ j ∧ ∃ next, events j = some (.go id next)

section Fair

variable {states : ℕ → Loop Batch} {events : ℕ → Option (Event Batch)} {i : ℕ}

theorem Fair.sound (h : Fair states events) (hs : (states 0).Sound) (i : ℕ) : (states i).Sound := by
  induction i with
  | zero => exact hs
  | succ i ih =>
    rcases h.next i with ⟨event, -, hstep⟩ | ⟨-, hsame⟩
    · exact ih.step hstep
    · exact hsame ▸ ih

/-- The task of a request goes on in the end, and until then nothing changes for both. -/
theorem Fair.exists_go (h : Fair states events) (hs : (states 0).Sound)
    (hworks : (states i).Works (isEvery r.target) id) (hrequest : (states i).requests[n]? = some r) :
    ∃ j next, i ≤ j ∧ (states j).tasks id = (states i).tasks id ∧ (states j).requests[n]? = some r ∧
      step (states j) (.go id next) = some (states (j + 1)) := by
  obtain ⟨j, hij, next, hgo⟩ := h.goes i id (unfinished_iff.mpr ⟨_, hworks⟩)
  -- the induction is on the moments until the task goes on for the first time
  induction hgap : j - i generalizing i with
  | zero =>
    obtain rfl : i = j := by omega
    rcases h.next i with ⟨event, hevent, hstep⟩ | ⟨hnone, -⟩
    · obtain rfl := Option.some.inj (hgo.symm.trans hevent)
      exact ⟨i, next, le_rfl, rfl, hrequest, hstep⟩
    · rw [hnone] at hgo; cases hgo
  | succ gap ih =>
    have hkeeps : (∃ next, step (states i) (.go id next) = some (states (i + 1))) ∨
        (states (i + 1)).tasks id = (states i).tasks id ∧ (states (i + 1)).requests[n]? = some r := by
      rcases h.next i with ⟨event, -, hstep⟩ | ⟨-, hsame⟩
      · by_cases hevent : ∃ next, event = .go id next
        · obtain ⟨next, rfl⟩ := hevent
          exact .inl ⟨next, hstep⟩
        · exact .inr (frame_step (h.sound hs i) hworks rfl hrequest (fun next heq ↦ hevent ⟨next, heq⟩) hstep)
      · rw [hsame]
        exact .inr ⟨rfl, hrequest⟩
    rcases hkeeps with ⟨next, hstep⟩ | ⟨htask, hkept⟩
    · exact ⟨i, next, le_rfl, rfl, hrequest, hstep⟩
    · obtain ⟨stage, htask', hdone⟩ := hworks
      obtain ⟨k, next, hk, htasks, hrequests, hstep⟩ :=
        ih ⟨stage, htask.trans htask', hdone⟩ hkept (by omega) (by omega)
      exact ⟨k, next, by omega, htasks.trans htask, hrequests, hstep⟩

/-- A pass begins for every request. -/
theorem Fair.exists_passing (h : Fair states events) (hs : (states 0).Sound) (hasked : r.progress = .asked)
    (hrequest : (states i).requests[n]? = some r) (hworks : (states i).Works (isEvery r.target) id) :
    ∃ j, i ≤ j ∧ (states j).requests[n]? = some { r with progress := .passing } := by
  induction hrank : (states i).ahead id r.target using WellFoundedLT.induction generalizing i with
  | ind rank ih =>
    obtain ⟨j, next, hij, htask, hkept, hstep⟩ := h.exists_go hs hworks hrequest
    have hworks' : (states j).Works (isEvery r.target) id := by
      obtain ⟨stage, htask', hdone⟩ := hworks
      exact ⟨stage, htask.trans htask', hdone⟩
    have hahead : (states j).ahead id r.target = rank := by rw [← hrank, Loop.ahead, Loop.ahead, htask]
    rcases ahead_lt (h.sound hs j) hworks' hasked hkept hstep with hpassing | ⟨hkept', hworks'', hlt⟩
    · exact ⟨j + 1, by omega, hpassing⟩
    · obtain ⟨k, hk, hpassing⟩ := ih _ (hahead ▸ hlt) hkept' hworks'' rfl
      exact ⟨k, by omega, hpassing⟩

/-- Every request is passed in the end. -/
theorem Fair.exists_passed (h : Fair states events) (hs : (states 0).Sound)
    (hrequest : (states i).requests[n]? = some r) :
    ∃ j, i ≤ j ∧ (states j).requests[n]? = some { r with progress := .passed } := by
  have hpassing : ∀ {k : ℕ}, (states k).requests[n]? = some { r with progress := .passing } →
      ∃ j, k ≤ j ∧ (states j).requests[n]? = some { r with progress := .passed } := by
    intro k hk
    obtain ⟨id, rest, htask⟩ := (h.sound hs k).passing _ (List.mem_of_getElem? hk) rfl
    obtain ⟨j, next, hkj, htasks, hkept, hstep⟩ := h.exists_go hs ⟨_, htask, rfl⟩ hk
    have hworks : (states j).Works (isEvery r.target) id := ⟨_, htasks.trans htask, rfl⟩
    exact ⟨j + 1, by omega, passing_go (r := { r with progress := .passing }) (h.sound hs j) rfl hkept hworks hstep⟩
  obtain ⟨target, progress⟩ := r
  cases progress with
  | passed => exact ⟨i, le_rfl, hrequest⟩
  | passing => exact hpassing hrequest
  | asked =>
    have hworks : ∃ id, (states i).Works (isEvery target) id := by
      rcases (h.sound hs i).asked _ (List.mem_of_getElem? hrequest) rfl with hmem | ⟨id, current, rest, htask, -⟩
      · exact (h.sound hs i).pending target hmem
      · exact ⟨id, _, htask, rfl⟩
    obtain ⟨id, hworks⟩ := hworks
    obtain ⟨k, hik, hk⟩ := h.exists_passing hs rfl hrequest hworks
    obtain ⟨j, hkj, hj⟩ := hpassing hk
    exact ⟨j, by omega, hj⟩

end Fair

/-- A pending target has a task that is not done, which is the only one of its kind, and so does every request
that is not passed: it is pending, left of a turn, or its pass is under way. When a call of `released` returns,
every request made before it is passed. In a run where tasks go on, every request is passed in the end. -/
theorem releases_kept (h : (releaseRequests Batch).Reachable s) :
    (∀ target ∈ s.releasePending, ∃ id, s.Works (isEvery target) id) ∧
      (∀ every id id', s.Works every id → s.Works every id' → id = id') ∧
      (∀ r ∈ s.requests, (r.progress = .asked → s.Awaits r.target) ∧
        (r.progress = .passing → s.Releases r.target)) ∧
      (∀ call w, s.waits call = some w → w.returned = true →
        ∀ r ∈ s.requests.take w.before, r.progress = .passed) ∧
      ∀ states events, states 0 = s → Fair states events → ∀ (i n : ℕ) (r : Request Batch),
        (states i).requests[n]? = some r → ∃ j, i ≤ j ∧ (states j).requests[n]? = some { r with progress := .passed } := by
  have hs := sound_of_reachable h
  refine ⟨hs.pending, fun every id id' ↦ hs.task_eq, fun r hr ↦ ⟨hs.asked r hr, hs.passing r hr⟩,
    fun call w hw ↦ (hs.returned call w hw).2, ?_⟩
  rintro states events rfl hfair i n r hrequest
  exact hfair.exists_passed hs hrequest

/-- A batch is asked for twice, the second time during its pass, and `released` waits for both. -/
def sampleRequests : List (Event ℕ) :=
  [.request (some 7), .go 0 (some 7), .request (some 7), .released 0, .request none, .go 1 none, .go 0 (some 7)]

theorem sampleRequests_isSome :
    ((releaseRequests ℕ).run (releaseRequests ℕ).initial sampleRequests).isSome := by
  decide

theorem releases_kept_sampleRequests :
    let s := ((releaseRequests ℕ).run (releaseRequests ℕ).initial sampleRequests).get sampleRequests_isSome
    (∀ r ∈ s.requests, (r.progress = .asked → s.Awaits r.target) ∧ (r.progress = .passing → s.Releases r.target)) ∧
      s.requests = [⟨some 7, .passed⟩, ⟨some 7, .passing⟩, ⟨none, .passing⟩] :=
  ⟨(releases_kept (Machine.reachable_of_run sampleRequests_isSome)).2.2.1, by decide⟩

end Holbuild.RemoteExec.ReleaseRequests
