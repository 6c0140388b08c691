import Holbuild.RemoteExec.Tables

/-!
# The coordinator's transactions on a batch

The methods of `Coordinator`, each as what its transaction makes of the row of the batch it locks. A
transaction that raises rolls back; `Abort` are the ways, and a function that may raise returns an
`Except`. `claimAction`, `makeReady`, `endBatch` and the statements of a heartbeat are the writes of
the transactions that always commit.

`complete` takes the record a worker reports for the attempt it holds a lease of, and branches as the
source does: built, sent to the high tier, given back unavailable, retried, missing an input, or
failed. `inputMissing` may add an edge, and then `addEdge` recomputes the priorities.

Scope. Columns hold any integer here, except that a completion rolls back on a peak that the `integer`
column of `peak_hints` cannot hold.
-/

set_option autoImplicit false
set_option relaxedAutoImplicit false

namespace Holbuild.RemoteExec

/-! ### Configuration -/

/-- The settings that transactions read. The deadline is a number of hours that need not be whole, so
it is held in microseconds with the text that `{hours:g}` makes of it. -/
structure Settings where
  leaseSeconds : ℤ := 120
  maxAttempts : ℤ := 3
  standardTierMb : ℤ := 16000
  retentionHours : ℤ := 168
  batchDeadline : Time := 12 * 3600 * 1000000
  batchDeadlineHours : String := "12"
  hintTtlDays : ℤ := 30
  runSlots : ℕ := 30

/-- `make_interval(secs => n)`. -/
def seconds (n : ℤ) : Time := n * 1000000

/-- `make_interval(hours => n)`. -/
def hours (n : ℤ) : Time := seconds (n * 3600)

/-- `make_interval(days => n)`, in a session whose days have 24 hours. -/
def days (n : ℤ) : Time := hours (n * 24)

/-! ### Errors -/

/-- What rolls a transaction back. -/
inductive Abort
  | resultMismatch (found : Option String) (foundSpec inputKey spec : String)
  | keyError (key : String)
  | noResultFound
  | outOfRange (value : ℤ)
deriving DecidableEq

/-- The text of a `ResultMismatch`, which the worker is answered. -/
def Abort.detail : Abort → Option String
  | .resultMismatch found foundSpec inputKey spec =>
    some ("result for " ++ found.getD "None" ++ " (spec " ++ foundSpec ++
      ") does not match the lease's action " ++ inputKey ++ " (spec " ++ spec ++ ")")
  | _ => none

/-- A peak that a completion recorded for a theory of a package. -/
structure Peak where
  package : String
  theory : String
  peakRssMb : ℤ
deriving DecidableEq

/-- `_record_peak`: the peak, when its `integer` column can hold it. -/
def recordPeak (package theory : String) (peak : ℤ) : Except Abort Peak :=
  if -2147483648 ≤ peak ∧ peak ≤ 2147483647 then .ok ⟨package, theory, peak⟩
  else .error (.outOfRange peak)

namespace BatchRow

/-! ### Claims and heartbeats -/

/-- The writes of `_claim` for the row it selected. -/
def claimAction (settings : Settings) (now : Time) (token : Uuid) (worker key : String)
    (b : BatchRow) : BatchRow :=
  { b.updateAction key fun a ↦
      { a with state := .running, attempts := a.attempts + 1, lastClaimedAt := some now } with
    leases := b.leases ++ [⟨token, key, worker, now + seconds settings.leaseSeconds⟩] }

/-- The write of `heartbeat`. -/
def heartbeat (settings : Settings) (now : Time) (token : Uuid) (b : BatchRow) : BatchRow :=
  { b with leases := b.leases.map fun l ↦
      if l.attemptToken = token ∧ now < l.expiresAt then
        { l with expiresAt := now + seconds settings.leaseSeconds }
      else l }

/-- The write of `_release_batch`: waiting actions whose parents are all done become ready. -/
def makeReady (keys : List String) (b : BatchRow) : BatchRow :=
  b.mapActions fun a ↦
    if a.inputKey ∈ keys ∧ a.state = .waiting ∧ a.remainingDeps = 0 then { a with state := .ready }
    else a

/-! ### Retries and failures -/

/-- `_retry`. -/
def retry (key : String) (b : BatchRow) : BatchRow :=
  (b.setState key .waiting).refreshKeys [key]

/-- `_requeue`. -/
def requeue (key : String) (b : BatchRow) : BatchRow :=
  ((b.updateAction key fun a ↦
    if a.state = .done then { a with state := .waiting } else a).refreshKeys [key]).refreshChildren
      [key]

/-- `_fail_batch`. -/
def failBatch (key failure : String) (b : BatchRow) : BatchRow :=
  (b.setState key .failed).endBatch .failed (some failure)

/-- `_fail`. -/
def fail (key : String) (actionClass : ActionClass) (failure : String) (b : BatchRow) : BatchRow :=
  match actionClass with
  | .build => b.failBatch key failure
  | .run => (b.setState key .failed).finishIfDone

/-- The end of a completion that built its action. -/
def finish (key : String) (b : BatchRow) : BatchRow :=
  ((b.setState key .done).refreshChildren [key]).finishIfDone

/-! ### Missing inputs -/

/-- `INSERT INTO edges … ON CONFLICT DO NOTHING`. -/
def insertEdge (child parent : String) (b : BatchRow) : BatchRow :=
  if (child, parent) ∈ b.edges then b else { b with edges := b.edges ++ [(child, parent)] }

/-- The update of the priorities that changed. -/
def reprioritise (priority : List (String × Priority)) (b : BatchRow) : BatchRow :=
  b.mapActions fun a ↦
    match priority.lookup a.inputKey with
    | some p =>
      if p ≠ a.priority then
        { a with criticalDepth := p.criticalDepth, descendantCount := p.descendantCount }
      else a
    | none => a

/-- `_add_edge`: the batch with the edge, or `none` when the edge would close a cycle. -/
def addEdge (child parent : String) (b : BatchRow) : Except Abort (Option BatchRow) :=
  match dagPriorities b.keys (b.edges ++ [(child, parent)]) with
  | .error .cycleError => .ok none
  | .error (.keyError key) => .error (.keyError key)
  | .ok priority => .ok (some ((b.insertEdge child parent).reprioritise priority))

/-- What `_input_missing` makes of an edge that was added: the action waits for the missing theory,
which is built again. -/
def block (child parent : String) (b : BatchRow) : BatchRow :=
  (b.setState child .waiting).requeue parent

/-- The theory of the batch that a result reports missing. -/
def rebuilt (missing : Option Missing) (b : BatchRow) : Option String :=
  match missing with
  | some ⟨.theory, key⟩ => (b.action? key).map (·.theory)
  | _ => none

/-- What a resubmission message says is missing. -/
def missingText (missing : Option Missing) (b : BatchRow) : String :=
  let what := match missing with
    | some missing => missing.kind.text ++ " " ++ missing.key
    | none => "an input"
  match b.rebuilt missing with
  | some theory => theory ++ " (" ++ what ++ ")"
  | none => what

/-- `_input_missing`. -/
def inputMissing (settings : Settings) (key theory : String) (attempts : ℤ)
    (missing : Option Missing) (b : BatchRow) : Except Abort BatchRow :=
  if settings.maxAttempts ≤ attempts then
    .ok (b.failBatch key ("resubmit: " ++ theory ++ " is still missing " ++ b.missingText missing ++
      " after " ++ toString attempts ++ " attempts"))
  else
    match b.rebuilt missing, missing with
    | some _, some missing =>
      match b.addEdge key missing.key with
      | .error abort => .error abort
      | .ok none => .ok (b.retry key)
      | .ok (some added) => .ok (added.block key missing.key)
    | _, _ => .ok (b.retry key)

/-- `_requeue_evicted`: the batch, and whether the parent was re-queued. -/
def requeueEvicted (settings : Settings) (parent : String) (b : BatchRow) : BatchRow × Bool :=
  if b.state ≠ .running then (b, false)
  else
    match b.action? parent with
    | none => (b, false)
    | some a =>
      if a.state ≠ .done then (b, false)
      else if settings.maxAttempts ≤ a.attempts then
        (b.failBatch parent ("resubmit: " ++ a.theory ++ " (theory " ++ parent ++
          ") is not in the cache after it built"), false)
      else (b.requeue parent, true)

/-! ### Completions -/

/-- The write of the log and the failure that a result reports. -/
def report (key : String) (result : Result) (b : BatchRow) : BatchRow :=
  b.updateAction key fun a ↦ { a with logSha256 := result.logSha256, lastFailure := result.failure }

/-- Whether a failed attempt that used up less than the attempts allowed is tried again. -/
def retries (failure lastFailure : Option Failure) : Bool :=
  failure ∈ [some .publish, some .toolchain, some .internal, some .memory] ||
    (failure = some .disk && lastFailure ≠ some .disk)

/-- What `complete` does with the result of the attempt that `a` was leased for, once it deleted the
lease and wrote the report: the batch, and the peak it records. -/
def settle (settings : Settings) (a : ActionRow) (result : Result) (b : BatchRow) :
    Except Abort (BatchRow × Option Peak) :=
  let (package, theory) := splitTheory a.theory
  if result.status ≠ .failed then
    match result.peakRssMb with
    | some peak => (recordPeak package theory peak).map fun peak ↦ (b.finish a.inputKey, some peak)
    | none => .ok (b.finish a.inputKey, none)
  else if result.failure = some .memory ∧ a.tier = .standard then
    (recordPeak package theory settings.standardTierMb).map fun peak ↦
      ((b.updateAction a.inputKey fun a ↦ { a with tier := .high }).retry a.inputKey, some peak)
  else if result.failure = some .unavailable then
    .ok ((b.updateAction a.inputKey fun a ↦ { a with attempts := a.attempts - 1 }).retry a.inputKey,
      none)
  else if a.attempts < settings.maxAttempts ∧ retries result.failure a.lastFailure then
    .ok (b.retry a.inputKey, none)
  else if result.failure = some .inputMissing then
    (b.inputMissing settings a.inputKey a.theory a.attempts result.missing).map (·, none)
  else
    .ok (b.fail a.inputKey a.actionClass
      (a.theory ++ ": " ++ (result.failure.map Failure.text).getD "None"), none)

/-- The lease that a completion deletes: the one of its token, while it has not expired. -/
def liveLease? (now : Time) (token : Uuid) (b : BatchRow) : Option LeaseRow :=
  b.leases.find? fun l ↦ l.attemptToken = token ∧ now < l.expiresAt

/-- `complete` on the batch of the lease; `none` when the lease is stale. -/
def complete (settings : Settings) (now : Time) (token : Uuid) (result : Result) (b : BatchRow) :
    Except Abort (Option (BatchRow × Option Peak)) :=
  match b.liveLease? now token with
  | none => .ok none
  | some lease =>
    match b.action? lease.inputKey with
    | none => .error .noResultFound
    | some a =>
      if result.specSha256 ≠ a.specSha256 ∨ result.inputKey.any (· ≠ a.inputKey) then
        .error (.resultMismatch result.inputKey result.specSha256 a.inputKey a.specSha256)
      else (((b.deleteLease token).report a.inputKey result).settle settings a result).map some

/-! ### Expiry -/

/-- The transaction of `expire_leases` on one lease it read. -/
def expireLease (settings : Settings) (now : Time) (token : Uuid) (b : BatchRow) : BatchRow :=
  match b.leases.find? fun l ↦ l.attemptToken = token ∧ l.expiresAt ≤ now with
  | none => b
  | some lease =>
    match b.action? lease.inputKey with
    | none => b
    | some a =>
      if a.state ≠ .running then b.deleteLease token
      else if settings.maxAttempts ≤ a.attempts then
        ((b.deleteLease token).updateAction a.inputKey fun a ↦
          if a.actionClass = .run then { a with lastFailure := some .internal } else a).fail
            a.inputKey a.actionClass
            (a.theory ++ ": lease expired " ++ toString a.attempts ++ " times")
      else (b.deleteLease token).retry a.inputKey

/-! ### The end of a batch -/

/-- `cancel`. -/
def cancel (b : BatchRow) : BatchRow :=
  if b.state = .running then b.endBatch .cancelled none else b

/-- The transaction of `fail_overdue` on one batch it read. -/
def failOverdue (settings : Settings) (b : BatchRow) : BatchRow :=
  if b.state = .running then
    b.endBatch .failed
      (some ("deadline: still running after " ++ settings.batchDeadlineHours ++ " h"))
  else b

end BatchRow

end Holbuild.RemoteExec
