import Holbuild.Library.Rows
import Holbuild.RemoteExec.DagPriorities

/-!
# The rows of a batch and the statements that change them

The tables of `alembic/versions` and the statements of `coordinator.py`. The rows of `actions`,
`edges` and `leases` reference the row of their batch and are deleted with it, so a `BatchRow` holds
them: a condition `batch_id = :batch_id` selects the batch, and the other conditions of a statement
select rows in it. `mapActions` is the shape of every `UPDATE actions`; the statements are written
over it, each under its name in the source.

`remaining` is the subquery of `REFRESH`, the number of current parents that are not done. `refresh`
recomputes it in the selected rows that are waiting or ready, and sends those with a parent that is
not done back to waiting.

Relations between a row before and after say what statements may do: `Refreshed`, what a refresh does
to a row; `Kept`, what any transaction may do to the row of an action it is not about; `Touched`, a
change to the row of one action while the others change in another way.
-/

set_option autoImplicit false
set_option relaxedAutoImplicit false

namespace Holbuild.RemoteExec

open Library

/-! ### Rows -/

/-- A `uuid4`. Two draws never give the same one. -/
abbrev Uuid := ℕ

instance lawfulBEqActionKey : LawfulBEq (Uuid × String) := inferInstance

/-- A `timestamptz`, in microseconds. -/
abbrev Time := ℤ

/-- The states of a batch. -/
inductive BatchState
  | running | failed | cancelled | done
deriving DecidableEq

/-- The states of an action. -/
inductive ActionState
  | waiting | ready | running | done | failed | cancelled
deriving DecidableEq

/-- The worker tiers. -/
inductive Tier
  | standard | high
deriving DecidableEq

/-- The classes of a batch's actions. -/
inductive ActionClass
  | build | run
deriving DecidableEq

/-- `state IN ('waiting', 'ready')`. -/
def ActionState.queued : ActionState → Bool
  | .waiting | .ready => true
  | _ => false

/-- `state IN ('waiting', 'ready', 'running')`. -/
def ActionState.unfinished : ActionState → Bool
  | .waiting | .ready | .running => true
  | _ => false

/-- A row of `actions`. -/
structure ActionRow where
  inputKey : String
  acKey : String
  specSha256 : String
  theory : String
  remainingDeps : ℕ
  state : ActionState
  tier : Tier
  attempts : ℤ
  lastFailure : Option Failure
  logSha256 : Option String
  criticalDepth : ℕ
  descendantCount : ℕ
  lastClaimedAt : Option Time
  actionClass : ActionClass
deriving DecidableEq

/-- A row of `leases`. -/
structure LeaseRow where
  attemptToken : Uuid
  inputKey : String
  worker : String
  expiresAt : Time
deriving DecidableEq

/-- A row of `batches` with the rows of `actions`, `edges` and `leases` that reference it. -/
structure BatchRow where
  id : Uuid
  createdAt : Time
  state : BatchState
  failure : Option String
  profile : String
  actions : List ActionRow
  edges : List (String × String)
  leases : List LeaseRow
deriving DecidableEq

/-- The stored priority of an action. -/
def ActionRow.priority (a : ActionRow) : Priority := ⟨a.criticalDepth, a.descendantCount⟩

/-- What the submission of a batch wrote of an action. -/
def ActionRow.submitted (a : ActionRow) : BatchAction × ActionClass :=
  (⟨a.inputKey, a.acKey, a.specSha256, a.theory⟩, a.actionClass)

namespace BatchRow

/-! ### Reading -/

/-- The input keys of the batch's actions. -/
def keys (b : BatchRow) : List String := b.actions.map (·.inputKey)

/-- The row of an action. -/
def action? (b : BatchRow) (key : String) : Option ActionRow := b.actions.find? (·.inputKey = key)

/-- Whether an action is one of the batch and is not done. -/
def pending (b : BatchRow) (key : String) : Bool := (b.action? key).any (·.state ≠ .done)

/-- The number of an action's current parents that are not done. -/
def remaining (b : BatchRow) (key : String) : ℕ :=
  b.edges.countP fun e ↦ e.1 = key && b.pending e.2

/-- The number of the batch's actions of class `run` that are running. -/
def runningRuns (b : BatchRow) : ℕ :=
  b.actions.countP fun a ↦ a.state = .running && a.actionClass = .run

/-! ### Statements -/

/-- `UPDATE actions`: one change to every row. -/
def mapActions (f : ActionRow → ActionRow) (b : BatchRow) : BatchRow :=
  { b with actions := b.actions.map f }

/-- `UPDATE actions` of the row of one action. -/
def updateAction (key : String) (f : ActionRow → ActionRow) (b : BatchRow) : BatchRow :=
  b.mapActions fun a ↦ if a.inputKey = key then f a else a

/-- `_set_state`. -/
def setState (key : String) (state : ActionState) (b : BatchRow) : BatchRow :=
  b.updateAction key fun a ↦ { a with state }

/-- `REFRESH` of the selected actions. -/
def refresh (selected : String → Bool) (b : BatchRow) : BatchRow :=
  b.mapActions fun a ↦
    if selected a.inputKey && a.state.queued then
      { a with
        remainingDeps := b.remaining a.inputKey
        state := if 0 < b.remaining a.inputKey then .waiting else a.state }
    else a

/-- `REFRESH_KEYS`. -/
def refreshKeys (keys : List String) (b : BatchRow) : BatchRow := b.refresh fun key ↦ key ∈ keys

/-- `REFRESH_CHILDREN`. -/
def refreshChildren (keys : List String) (b : BatchRow) : BatchRow :=
  b.refresh fun key ↦ b.edges.any fun e ↦ e.1 = key && e.2 ∈ keys

/-- `DELETE FROM leases` of one attempt. -/
def deleteLease (token : Uuid) (b : BatchRow) : BatchRow :=
  { b with leases := b.leases.filter (·.attemptToken ≠ token) }

/-- `_end_batch`. -/
def endBatch (state : BatchState) (failure : Option String) (b : BatchRow) : BatchRow :=
  { b with
    state
    failure
    actions := b.actions.map fun a ↦ if a.state.unfinished then { a with state := .cancelled } else a
    leases := [] }

/-- `_finish_if_done`. -/
def finishIfDone (b : BatchRow) : BatchRow :=
  if b.actions.all fun a ↦ a.state = .done || a.state = .failed then { b with state := .done }
  else b

/-! ### What the statements leave alone -/

section Frame

variable (b : BatchRow) (f : ActionRow → ActionRow) (key : String) (s : ActionState)
  (selected : String → Bool) (ks : List String) (token : Uuid)

@[simp] theorem mapActions_actions : (b.mapActions f).actions = b.actions.map f := rfl
@[simp] theorem mapActions_id : (b.mapActions f).id = b.id := rfl
@[simp] theorem mapActions_state : (b.mapActions f).state = b.state := rfl
@[simp] theorem mapActions_edges : (b.mapActions f).edges = b.edges := rfl
@[simp] theorem mapActions_leases : (b.mapActions f).leases = b.leases := rfl
@[simp] theorem updateAction_id : (b.updateAction key f).id = b.id := rfl
@[simp] theorem updateAction_state : (b.updateAction key f).state = b.state := rfl
@[simp] theorem updateAction_edges : (b.updateAction key f).edges = b.edges := rfl
@[simp] theorem updateAction_leases : (b.updateAction key f).leases = b.leases := rfl
@[simp] theorem setState_id : (b.setState key s).id = b.id := rfl
@[simp] theorem setState_state : (b.setState key s).state = b.state := rfl
@[simp] theorem setState_edges : (b.setState key s).edges = b.edges := rfl
@[simp] theorem setState_leases : (b.setState key s).leases = b.leases := rfl
@[simp] theorem refresh_id : (b.refresh selected).id = b.id := rfl
@[simp] theorem refresh_state : (b.refresh selected).state = b.state := rfl
@[simp] theorem refresh_edges : (b.refresh selected).edges = b.edges := rfl
@[simp] theorem refresh_leases : (b.refresh selected).leases = b.leases := rfl
@[simp] theorem refreshKeys_id : (b.refreshKeys ks).id = b.id := rfl
@[simp] theorem refreshKeys_state : (b.refreshKeys ks).state = b.state := rfl
@[simp] theorem refreshKeys_edges : (b.refreshKeys ks).edges = b.edges := rfl
@[simp] theorem refreshKeys_leases : (b.refreshKeys ks).leases = b.leases := rfl
@[simp] theorem refreshChildren_id : (b.refreshChildren ks).id = b.id := rfl
@[simp] theorem refreshChildren_state : (b.refreshChildren ks).state = b.state := rfl
@[simp] theorem refreshChildren_edges : (b.refreshChildren ks).edges = b.edges := rfl
@[simp] theorem refreshChildren_leases : (b.refreshChildren ks).leases = b.leases := rfl
@[simp] theorem deleteLease_id : (b.deleteLease token).id = b.id := rfl
@[simp] theorem deleteLease_state : (b.deleteLease token).state = b.state := rfl
@[simp] theorem deleteLease_edges : (b.deleteLease token).edges = b.edges := rfl
@[simp] theorem deleteLease_actions : (b.deleteLease token).actions = b.actions := rfl
@[simp] theorem endBatch_id (state : BatchState) (failure : Option String) :
    (b.endBatch state failure).id = b.id := rfl
@[simp] theorem endBatch_state (state : BatchState) (failure : Option String) :
    (b.endBatch state failure).state = state := rfl
@[simp] theorem endBatch_edges (state : BatchState) (failure : Option String) :
    (b.endBatch state failure).edges = b.edges := rfl
@[simp] theorem endBatch_leases (state : BatchState) (failure : Option String) :
    (b.endBatch state failure).leases = [] := rfl

@[simp] theorem finishIfDone_id : b.finishIfDone.id = b.id := by
  unfold finishIfDone; split <;> rfl

@[simp] theorem finishIfDone_actions : b.finishIfDone.actions = b.actions := by
  unfold finishIfDone; split <;> rfl

@[simp] theorem finishIfDone_edges : b.finishIfDone.edges = b.edges := by
  unfold finishIfDone; split <;> rfl

@[simp] theorem finishIfDone_leases : b.finishIfDone.leases = b.leases := by
  unfold finishIfDone; split <;> rfl

end Frame

/-- The batch is done after `_finish_if_done` exactly when every action is done or failed, or it was
done before. -/
theorem finishIfDone_state (b : BatchRow) :
    b.finishIfDone.state =
      if ∀ a ∈ b.actions, a.state = .done ∨ a.state = .failed then .done else b.state := by
  unfold finishIfDone
  simp only [List.all_eq_true, Bool.or_eq_true, decide_eq_true_eq]
  split <;> rfl

end BatchRow

/-! ### What a statement does to a row -/

/-- What a refresh does to a row: nothing, or new remaining dependencies for a waiting or ready row,
which it may send back to waiting. -/
def Refreshed (a a' : ActionRow) : Prop :=
  a' = a ∨ a.state.queued ∧ ∃ n s, (s = a.state ∨ s = .waiting) ∧
    a' = { a with remainingDeps := n, state := s }

/-- What a transaction may do to the row of an action it is not about: change its scheduling columns
and let it wait or be ready for the other. -/
def Kept (a a' : ActionRow) : Prop :=
  ∃ n s depth count, (s = a.state ∨ a.state.queued ∧ s.queued) ∧
    a' = { a with
      remainingDeps := n, state := s, criticalDepth := depth, descendantCount := count }

/-- The row of one action changes as `change` says, and the other rows as `rest` says. -/
def Touched (key : String) (change rest : ActionRow → ActionRow → Prop) (a a' : ActionRow) : Prop :=
  if a.inputKey = key then change a a' else rest a a'

theorem Refreshed.refl (a : ActionRow) : Refreshed a a := Or.inl rfl

/-- A refresh of a refreshed row is a refresh. -/
theorem Refreshed.trans {a b c : ActionRow} (hab : Refreshed a b) (hbc : Refreshed b c) :
    Refreshed a c := by
  rcases hab with rfl | ⟨hqueued, n, s, hs, rfl⟩
  · exact hbc
  · rcases hbc with rfl | ⟨-, m, t, ht, rfl⟩
    · exact Or.inr ⟨hqueued, n, s, hs, rfl⟩
    · refine Or.inr ⟨hqueued, m, t, ?_, rfl⟩
      rcases ht with rfl | rfl
      · exact hs
      · exact Or.inr rfl

/-- Refreshing a row leaves it waiting if it is, and leaves it alone if nobody waits. -/
theorem Refreshed.state_eq {a a' : ActionRow} {s : ActionState} (ha : Refreshed a a')
    (hs : s = .waiting ∨ s.queued = false) (hstate : a.state = s) : a'.state = s := by
  rcases ha with rfl | ⟨hqueued, n, t, ht, rfl⟩
  · exact hstate
  · rcases hs with rfl | hs
    · exact ht.elim (fun h ↦ h.trans hstate) fun h ↦ h
    · rw [hstate, hs] at hqueued
      cases hqueued

theorem Kept.refl (a : ActionRow) : Kept a a :=
  ⟨a.remainingDeps, a.state, a.criticalDepth, a.descendantCount, Or.inl rfl, rfl⟩

theorem Kept.of_eq {a a' : ActionRow} (ha : a' = a) : Kept a a' := ha ▸ Kept.refl a

theorem Kept.trans {a b c : ActionRow} (hab : Kept a b) (hbc : Kept b c) : Kept a c := by
  obtain ⟨n, s, depth, count, hs, rfl⟩ := hab
  obtain ⟨n', s', depth', count', hs', rfl⟩ := hbc
  refine ⟨n', s', depth', count', ?_, rfl⟩
  rcases hs' with rfl | ⟨hqueued, hqueued'⟩
  · exact hs
  · rcases hs with rfl | ⟨ha, -⟩
    · exact Or.inr ⟨hqueued, hqueued'⟩
    · exact Or.inr ⟨ha, hqueued'⟩

theorem Refreshed.kept {a a' : ActionRow} (ha : Refreshed a a') : Kept a a' := by
  rcases ha with rfl | ⟨hqueued, n, s, hs, rfl⟩
  · exact Kept.refl a'
  · refine ⟨n, s, a.criticalDepth, a.descendantCount, ?_, rfl⟩
    rcases hs with rfl | rfl
    · exact Or.inl rfl
    · exact Or.inr ⟨hqueued, rfl⟩

theorem Kept.inputKey {a a' : ActionRow} (ha : Kept a a') : a'.inputKey = a.inputKey := by
  obtain ⟨n, s, depth, count, -, rfl⟩ := ha
  rfl

/-- Setting the state of a row and of what it was kept as. -/
theorem Kept.withState {a a' : ActionRow} (ha : Kept a a') (s : ActionState) :
    Kept { a with state := s } { a' with state := s } := by
  obtain ⟨n, t, depth, count, -, rfl⟩ := ha
  exact ⟨n, s, depth, count, Or.inl rfl, rfl⟩

/-- A kept row is unfinished exactly when it was. -/
theorem Kept.unfinished {a a' : ActionRow} (ha : Kept a a') :
    a'.state.unfinished = a.state.unfinished := by
  obtain ⟨n, s, depth, count, rfl | ⟨hqueued, hqueued'⟩, rfl⟩ := ha
  · rfl
  · cases hstate : a.state <;> cases s <;> simp_all [ActionState.queued, ActionState.unfinished]

/-- A kept row has a state in which nobody waits exactly when it had that state. -/
theorem Kept.state_eq_iff {a a' : ActionRow} (ha : Kept a a') {s : ActionState}
    (hs : s.queued = false) : a'.state = s ↔ a.state = s := by
  obtain ⟨n, t, depth, count, rfl | ⟨hqueued, hqueued'⟩, rfl⟩ := ha
  · exact Iff.rfl
  · constructor <;> rintro rfl <;> simp_all

theorem touched_iff {key : String} {change rest : ActionRow → ActionRow → Prop} {a a' : ActionRow} :
    Touched key change rest a a' ↔
      (a.inputKey = key → change a a') ∧ (a.inputKey ≠ key → rest a a') := by
  unfold Touched
  by_cases hkey : a.inputKey = key <;> simp [hkey]

namespace BatchRow

/-- An update of the row of one action evolves the rows. -/
theorem evolve_updateAction (b : BatchRow) (key : String) (f : ActionRow → ActionRow) :
    Evolve (Touched key (fun a a' ↦ a' = f a) fun a a' ↦ a' = a) b.actions
      (b.updateAction key f).actions := by
  refine evolve_map fun a _ ↦ touched_iff.mpr ⟨fun hkey ↦ ?_, fun hkey ↦ ?_⟩
  · simp [hkey]
  · simp [hkey]

/-- A refresh refreshes the selected rows and leaves the others alone. -/
theorem evolve_refresh (b : BatchRow) (selected : String → Bool) :
    Evolve (fun a a' ↦ Refreshed a a' ∧ (selected a.inputKey = false → a' = a)) b.actions
      (b.refresh selected).actions := by
  refine evolve_map fun a _ ↦ ⟨?_, fun hselected ↦ by simp [hselected]⟩
  by_cases hqueued : (selected a.inputKey && a.state.queued) = true
  · simp only [hqueued, if_true]
    refine Or.inr ⟨(Bool.and_eq_true _ _ ▸ hqueued).2, _, _, ?_, rfl⟩
    split
    · exact Or.inr rfl
    · exact Or.inl rfl
  · simp only [hqueued, Bool.false_eq_true, if_false]
    exact Or.inl rfl

/-- The end of a batch cancels the unfinished rows and leaves the others alone. -/
theorem evolve_endBatch (b : BatchRow) (state : BatchState) (failure : Option String) :
    Evolve (fun a a' ↦ if a.state.unfinished then a' = { a with state := .cancelled } else a' = a)
      b.actions (b.endBatch state failure).actions := by
  refine evolve_map fun a _ ↦ ?_
  by_cases hunfinished : a.state.unfinished <;> simp [hunfinished]

end BatchRow

end Holbuild.RemoteExec
