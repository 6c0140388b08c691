import Mathlib.Data.List.Basic
import Mathlib.Order.WellFounded

/-!
# Machines, their runs and their invariants

A `Machine` has an initial state and a partial step: what an event does in a state, `none` when the
event cannot happen there. `Machine.run` executes a list of events; `Machine.Reachable` are the
states some run ends in. `Machine.Reachable.invariant` is the induction every safety property here
rests on: what holds initially and is kept by every step holds in every reachable state.

`Machine.guard` restricts the steps to those that meet a condition, so that its reachable states are
those of the runs all of whose steps meet it. `Machine.Run` records what is observed along a run,
for properties about how often something happened, and `Machine.log` computes it.
`Machine.Complete` are the runs that go on as long as they can: when every step lowers a rank, they
get stuck (`Machine.Complete.exists_stuck`). `Machine.Reachable.simulates` carries
reachability from a machine to one it refines.
-/

set_option autoImplicit false
set_option relaxedAutoImplicit false

namespace Holbuild.Library

/-- A labelled transition system with a partial step. -/
structure Machine (State Event : Type*) where
  initial : State
  step : State → Event → Option State

namespace Machine

variable {State Event : Type*} {M : Machine State Event}

/-- Executes events, oldest first; `none` when one of them cannot happen. -/
def run (M : Machine State Event) : State → List Event → Option State
  | state, [] => some state
  | state, event :: rest => (M.step state event).bind fun next ↦ run M next rest

/-- The states that runs from the initial state end in. -/
inductive Reachable (M : Machine State Event) : State → Prop
  | initial : Reachable M M.initial
  | step {state next : State} (event : Event) :
    Reachable M state → M.step state event = some next → Reachable M next

/-- A run from a reachable state ends in a reachable state. -/
theorem Reachable.run {events : List Event} :
    ∀ {state last : State}, M.Reachable state → M.run state events = some last →
      M.Reachable last := by
  induction events with
  | nil =>
    intro state last hstate hrun
    simp only [Machine.run, Option.some.injEq] at hrun
    exact hrun ▸ hstate
  | cons event rest ih =>
    intro state last hstate hrun
    obtain ⟨next, hnext, hrest⟩ := Option.bind_eq_some_iff.mp hrun
    exact ih (hstate.step event hnext) hrest

/-- The last state of an executed run is reachable. -/
theorem reachable_of_run {events : List Event} (hrun : (M.run M.initial events).isSome) :
    M.Reachable ((M.run M.initial events).get hrun) :=
  Reachable.initial.run (Option.some_get hrun).symm

/-- What holds initially and is kept by every step from a reachable state holds in every reachable
state. -/
theorem Reachable.invariant {P : State → Prop} (hinitial : P M.initial)
    (hstep : ∀ state event next, M.Reachable state → P state → M.step state event = some next →
      P next) {state : State} (hstate : M.Reachable state) : P state := by
  induction hstate with
  | initial => exact hinitial
  | step event hreachable hnext ih => exact hstep _ event _ hreachable ih hnext

/-- The steps that meet a condition. -/
def guard (M : Machine State Event) (ok : State → Event → Prop) [DecidableRel ok] :
    Machine State Event where
  initial := M.initial
  step state event := if ok state event then M.step state event else none

/-- A guarded step is a step whose event meets the condition. -/
theorem guard_step {ok : State → Event → Prop} [DecidableRel ok] {state next : State}
    {event : Event} : (M.guard ok).step state event = some next ↔
      ok state event ∧ M.step state event = some next := by
  by_cases hok : ok state event <;> simp [guard, hok]

/-- The states of the runs all of whose steps meet a condition are reachable. -/
theorem Reachable.of_guard {ok : State → Event → Prop} [DecidableRel ok] {state : State}
    (hstate : (M.guard ok).Reachable state) : M.Reachable state := by
  induction hstate with
  | initial => exact .initial
  | step event _ hnext ih => exact ih.step event (guard_step.mp hnext).2

/-- Runs with the list of what was observed along them, oldest first. -/
inductive Run (M : Machine State Event) {Observation : Type*}
    (observe : State → Event → List Observation) : List Observation → State → Prop
  | initial : Run M observe [] M.initial
  | step {observed : List Observation} {state next : State} (event : Event) :
    Run M observe observed state → M.step state event = some next →
      Run M observe (observed ++ observe state event) next

/-- The last state of an observed run is reachable. -/
theorem Run.reachable {Observation : Type*} {observe : State → Event → List Observation}
    {observed : List Observation} {state : State} (hrun : M.Run observe observed state) :
    M.Reachable state := by
  induction hrun with
  | initial => exact .initial
  | step event _ hnext ih => exact ih.step event hnext

/-- What is observed along events, oldest first. -/
def log (M : Machine State Event) {Observation : Type*}
    (observe : State → Event → List Observation) : State → List Event → List Observation
  | _, [] => []
  | state, event :: rest =>
    observe state event ++ ((M.step state event).elim [] fun next ↦ log M observe next rest)

/-- Executing events continues a run by what is observed along them. -/
theorem Run.log {Observation : Type*} {observe : State → Event → List Observation}
    {events : List Event} : ∀ {observed : List Observation} {state last : State},
      M.Run observe observed state → M.run state events = some last →
        M.Run observe (observed ++ M.log observe state events) last := by
  induction events with
  | nil =>
    intro observed state last hstate hrun
    simp only [Machine.run, Option.some.injEq] at hrun
    rw [Machine.log, List.append_nil]
    exact hrun ▸ hstate
  | cons event rest ih =>
    intro observed state last hstate hrun
    obtain ⟨next, hnext, hrest⟩ := Option.bind_eq_some_iff.mp hrun
    have hlast := ih (hstate.step event hnext) hrest
    rw [List.append_assoc] at hlast
    simpa only [Machine.log, hnext, Option.elim_some] using hlast

/-- Assumes: a map that sends the initial state to the initial state and every step to a run of at
most one step. It sends reachable states to reachable states. -/
theorem Reachable.simulates {State' Event' : Type*} {N : Machine State' Event'}
    (abstraction : State → State') (hinitial : abstraction M.initial = N.initial)
    (hstep : ∀ state event next, M.Reachable state → N.Reachable (abstraction state) →
      M.step state event = some next → abstraction next = abstraction state ∨
        ∃ event', N.step (abstraction state) event' = some (abstraction next))
    {state : State} (hstate : M.Reachable state) : N.Reachable (abstraction state) := by
  induction hstate with
  | initial => exact hinitial ▸ .initial
  | step event hreachable hnext ih =>
    rcases hstep _ event _ hreachable ih hnext with hstutter | ⟨event', hnext'⟩
    · exact hstutter ▸ ih
    · exact ih.step event' hnext'

/-! ### Complete runs -/

/-- No event can happen. -/
def Stuck (M : Machine State Event) (state : State) : Prop := ∀ event, M.step state event = none

/-- The states of a run from the initial state that goes on as long as some event can happen, and
then stays where it is. -/
structure Complete (M : Machine State Event) (states : ℕ → State) : Prop where
  initial : states 0 = M.initial
  next : ∀ k, (∃ event, M.step (states k) event = some (states (k + 1))) ∨
    M.Stuck (states k) ∧ states (k + 1) = states k

theorem Complete.reachable {states : ℕ → State} (hrun : M.Complete states) (k : ℕ) :
    M.Reachable (states k) := by
  induction k with
  | zero => exact hrun.initial ▸ .initial
  | succ k ih =>
    rcases hrun.next k with ⟨event, hnext⟩ | ⟨-, hsame⟩
    · exact ih.step event hnext
    · exact hsame ▸ ih

/-- Assumes: every step from a reachable state lowers a rank. Complete runs get stuck, from any
moment on. -/
theorem Complete.exists_stuck {Rank : Type*} [Preorder Rank] [WellFoundedLT Rank] (rank : State → Rank)
    (hstep : ∀ state event next, M.Reachable state → M.step state event = some next →
      rank next < rank state) {states : ℕ → State} (hrun : M.Complete states) (k : ℕ) :
    ∃ j, k ≤ j ∧ M.Stuck (states j) := by
  -- the rank of the state at `k` falls as long as the run goes on
  induction hrank : rank (states k) using WellFoundedLT.induction generalizing k with
  | ind r ih =>
    rcases hrun.next k with ⟨event, hnext⟩ | ⟨hstuck, -⟩
    · have hlt := hstep _ event _ (hrun.reachable k) hnext
      obtain ⟨j, hj, hstuck⟩ := ih _ (hrank ▸ hlt) (k + 1) rfl
      exact ⟨j, by omega, hstuck⟩
    · exact ⟨k, le_refl k, hstuck⟩

end Machine

end Holbuild.Library
