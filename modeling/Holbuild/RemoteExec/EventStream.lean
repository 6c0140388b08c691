import Holbuild.Library.Versions
import Holbuild.RemoteExec.Leases
import Mathlib.Data.List.Sort

/-!
# The event stream of a batch

The stream of `events` in `app.py`, which polls `changes`, against the transactions of the coordinator. A
transaction gets its number (`assign`) when it first writes; numbers increase and transactions end in any
order. What it writes is seen when it commits, and until then it holds the locks of the rows it wrote, so it
is one step of the coordinator at its commit, which stamps the rows it changed and any others it wrote
without a change. Other transactions on the server only get a number and end. A poll reads one snapshot, and
the lines it makes are emitted while other transactions go on.

The snapshot of the last poll is kept here, and no step depends on it. `Served.Sound` is the invariant and
`event_stream_complete` the result.
-/

set_option autoImplicit false
set_option relaxedAutoImplicit false

namespace Holbuild.RemoteExec

open Library

/-- `ActionStatus`. -/
structure ActionStatus where
  inputKey : String
  theory : String
  state : ActionState
  tier : Tier
  attempts : ℤ
  lastFailure : Option Failure
  logSha256 : Option String
deriving DecidableEq

/-- The columns of a row that a stream reads. -/
def ActionRow.status (a : ActionRow) : ActionStatus where
  inputKey := a.inputKey
  theory := a.theory
  state := a.state
  tier := a.tier
  attempts := a.attempts
  lastFailure := a.lastFailure
  logSha256 := a.logSha256

/-- `BatchStatus`. -/
structure BatchStatus where
  batchId : Uuid
  state : BatchState
  failure : Option String
  actions : List ActionStatus

/-- `ORDER BY theory, input_key`, text in the order of its code points. -/
def ActionStatus.before (x y : ActionStatus) : Prop :=
  x.theory < y.theory ∨ x.theory = y.theory ∧ x.inputKey ≤ y.inputKey

instance : DecidableRel ActionStatus.before := fun _ _ ↦ inferInstanceAs (Decidable (_ ∨ _))

namespace EventStream

/-! ### The server -/

/-- The coordinator, the column `changed_xid` of `actions`, the numbers of the transactions that run, and the
next number. -/
structure Server where
  state : State
  changedXid : Uuid → String → ℕ
  running : List ℕ
  nextXid : ℕ

namespace Server

/-- `pg_snapshot_xmin`: the oldest transaction that runs, or the next one. -/
def xmin (s : Server) : ℕ := s.running.foldl min s.nextXid

/-- A transaction that runs commits a step of the coordinator: it wrote the rows that changed and those
touched, which the trigger `actions_stamp_change` stamped. -/
def commit (xid : ℕ) (state : State) (touched : List (Uuid × String)) (s : Server) : Server where
  state := state
  changedXid id key :=
    if s.state.db.row? (id, key) = state.db.row? (id, key) ∧ (id, key) ∉ touched then
      s.changedXid id key
    else xid
  running := s.running.erase xid
  nextXid := s.nextXid

/-- `CHANGED_ACTIONS`. -/
def changedActions (b : BatchRow) (since : ℕ) (s : Server) : List ActionStatus :=
  ((b.actions.filter fun a ↦ since ≤ s.changedXid b.id a.inputKey).map (·.status)).insertionSort
    ActionStatus.before

/-- `changes`. -/
def changes (id : Uuid) (since : ℕ) (s : Server) : Option (BatchStatus × ℕ) :=
  (s.state.db.batch? id).map fun b ↦
    (⟨b.id, b.state, b.failure, s.changedActions b since⟩, s.xmin)

/-- The rows of a batch with the numbers of their last writers. -/
def versions (id : Uuid) (s : Server) : Versions String ActionStatus where
  row key := (s.state.db.row? (id, key)).map (·.status)
  stamp := s.changedXid id
  running := s.running
  next := s.nextXid

end Server

/-! ### The stream -/

/-- A line of the stream. -/
inductive Line
  | action (status : ActionStatus)
  | batch (state : BatchState) (failure : Option String)
  | blank
deriving DecidableEq

/-- Where the loop is: before its first poll, between a poll and the lines it makes, asleep, or at its end. -/
inductive Phase
  | started
  | polled (batch : BatchStatus) (since : ℕ)
  | sleeping (since : ℕ)
  | over

/-- `seen`, the lines sent, where the loop is, and the actions in the snapshot of the last poll. -/
structure Stream where
  seen : String → Option ActionStatus
  lines : List Line
  phase : Phase
  snapshot : String → Option ActionStatus

/-- The loop over `batch.actions`: `seen` after it, and its lines. -/
def emitActions (seen : String → Option ActionStatus) :
    List ActionStatus → (String → Option ActionStatus) × List Line
  | [] => (seen, [])
  | action :: rest =>
    if seen action.inputKey = some action then emitActions seen rest
    else
      let out := emitActions (Function.update seen action.inputKey (some action)) rest
      (out.1, .action action :: out.2)

/-- The body of the loop after a poll, up to its sleep. A blank line is sent when the stream was quiet for
long. -/
def emit (batch : BatchStatus) (since : ℕ) (quiet : Bool) (s : Stream) : Stream :=
  let out := emitActions s.seen batch.actions
  if batch.state ≠ .running then
    { s with
      seen := out.1
      lines := s.lines ++ out.2 ++ [.batch batch.state batch.failure]
      phase := .over }
  else
    { s with
      seen := out.1
      lines := s.lines ++ out.2 ++ if quiet then [.blank] else []
      phase := .sleeping since }

/-- What a client makes of a line: the last status of each action. -/
def see (seen : String → Option ActionStatus) : Line → String → Option ActionStatus
  | .action status => Function.update seen status.inputKey (some status)
  | .batch _ _ | .blank => seen

/-- What a client has seen. -/
def view (lines : List Line) : String → Option ActionStatus := lines.foldl see fun _ ↦ none

/-- The server and a stream of it. -/
structure Served where
  server : Server
  stream : Stream

/-- A transaction gets its number, ends without a write of an action, or commits a step of the coordinator;
the coordinator reads, or time passes; the stream polls, or sends what it polled. -/
inductive Event
  | assign
  | finish (xid : ℕ)
  | commit (xid : ℕ) (e : RemoteExec.Event) (touched : List (Uuid × String))
  | read (e : RemoteExec.Event)
  | poll
  | emit (quiet : Bool)

/-- A poll of `changes`, which ends the stream when the batch is gone. -/
def Served.poll (id : Uuid) (since : ℕ) (s : Served) : Served :=
  match s.server.changes id since with
  | some (batch, since) => { s with
      stream := { s.stream with
        phase := .polled batch since
        snapshot := fun key ↦ (s.server.state.db.row? (id, key)).map (·.status) } }
  | none => { s with stream := { s.stream with phase := .over } }

/-- One event. -/
def step (settings : Settings) (id : Uuid) (s : Served) : Event → Option Served
  | .assign => some { s with server := { s.server with
      running := s.server.nextXid :: s.server.running
      nextXid := s.server.nextXid + 1 } }
  | .finish xid => some { s with server := { s.server with running := s.server.running.erase xid } }
  | .commit xid e touched =>
    if xid ∈ s.server.running then
      (RemoteExec.step settings s.server.state e).map fun state ↦
        { s with server := s.server.commit xid state touched }
    else none
  | .read e =>
    match RemoteExec.step settings s.server.state e with
    | some state =>
      if state.db = s.server.state.db then some { s with server := { s.server with state } } else none
    | none => none
  | .poll =>
    match s.stream.phase with
    | .started => some (s.poll id 0)
    | .sleeping since => some (s.poll id since)
    | _ => none
  | .emit quiet =>
    match s.stream.phase with
    | .polled batch since => some { s with stream := EventStream.emit batch since quiet s.stream }
    | _ => none

/-- A stream of a batch, on a server where `changed_xid` was added in some state of the coordinator, with 0
for the rows there were, and the next transaction has some number. -/
def eventStream (settings : Settings) (state : State) (nextXid : ℕ) (id : Uuid) :
    Machine Served Event where
  initial := ⟨⟨state, fun _ _ ↦ 0, [], nextXid⟩, ⟨fun _ ↦ none, [], .started, fun _ ↦ none⟩⟩
  step := step settings id

/-! ### What a client makes of the lines -/

section Lines

variable {seen : String → Option ActionStatus} {actions : List ActionStatus}

/-- `seen` is what a client has seen. -/
theorem foldl_see_emitActions :
    (emitActions seen actions).2.foldl see seen = (emitActions seen actions).1 := by
  induction actions generalizing seen with
  | nil => rfl
  | cons action rest ih =>
    rw [emitActions]
    split_ifs with hseen
    · exact ih
    · exact ih

/-- The actions that are sent are laid over those seen. -/
theorem emitActions_seen (hnodup : (actions.map (·.inputKey)).Nodup) (key : String) :
    (emitActions seen actions).1 key =
      (actions.find? (·.inputKey = key)).or (seen key) := by
  induction actions generalizing seen with
  | nil => rfl
  | cons action rest ih =>
    obtain ⟨hnew, hrest⟩ := List.nodup_cons.mp hnodup
    have hupdate : (emitActions seen (action :: rest)).1 =
        (emitActions (Function.update seen action.inputKey (some action)) rest).1 := by
      rw [emitActions]
      split_ifs with hseen
      · rw [← hseen, Function.update_eq_self]
      · rfl
    rw [hupdate, ih hrest]
    by_cases hkey : action.inputKey = key
    · subst hkey
      have hnone : rest.find? (·.inputKey = action.inputKey) = none := by
        rw [List.find?_eq_none]
        intro other hother heq
        apply hnew
        exact List.mem_map.mpr ⟨other, hother, by simpa using heq⟩
      rw [hnone, Option.none_or, Function.update_self, List.find?_cons_of_pos (by simp),
        Option.some_or]
    · rw [Function.update_of_ne (Ne.symm hkey), List.find?_cons_of_neg (by simpa using hkey)]

/-- The lines of actions name no batch. -/
theorem batch_notMem_emitActions (state : BatchState) (failure : Option String) :
    Line.batch state failure ∉ (emitActions seen actions).2 := by
  induction actions generalizing seen with
  | nil => exact List.not_mem_nil
  | cons action rest ih =>
    rw [emitActions]
    split_ifs with hseen
    · exact ih
    · intro hmem
      exact ih ((List.mem_cons.mp hmem).resolve_left nofun)

end Lines

/-! ### What a poll reads -/

section Polls

variable {s : Server} {b : BatchRow}

theorem row?_of_batch? {db : Db} (hb : db.batch? b.id = some b) (key : String) :
    db.row? (b.id, key) = b.action? key := by
  rw [Db.row?, hb, Option.bind_some]

/-- The keys of what a poll reads are distinct. -/
theorem keys_nodup_changedActions (hnodup : b.keys.Nodup) (since : ℕ) :
    ((s.changedActions b since).map (·.inputKey)).Nodup := by
  have hperm := (List.perm_insertionSort ActionStatus.before ((b.actions.filter fun a ↦
    since ≤ s.changedXid b.id a.inputKey).map (·.status))).map (·.inputKey)
  rw [Server.changedActions, hperm.nodup_iff, List.map_map]
  exact (List.filter_sublist.map ActionRow.inputKey).nodup hnodup

/-- A poll reads the rows that were stamped since. -/
theorem find?_changedActions (hnodup : b.keys.Nodup) (since : ℕ) (key : String) :
    (s.changedActions b since).find? (·.inputKey = key) =
      ((b.action? key).map (·.status)).filter fun _ ↦ since ≤ s.changedXid b.id key := by
  ext status
  have hfind : (s.changedActions b since).find? (·.inputKey = key) = some status ↔
      status ∈ s.changedActions b since ∧ status.inputKey = key := by
    constructor
    · intro hfound
      exact ⟨List.mem_of_find?_eq_some hfound, by simpa using List.find?_some hfound⟩
    · rintro ⟨hmem, rfl⟩
      exact find?_eq_some_of_mem (keys_nodup_changedActions hnodup since) hmem
  have haction : ∀ a, b.action? key = some a ↔ a ∈ b.actions ∧ a.inputKey = key := by
    intro a
    constructor
    · exact BatchRow.action?_eq_some
    · rintro ⟨hmem, rfl⟩
      exact find?_eq_some_of_mem hnodup hmem
  rw [hfind, Option.filter_eq_some_iff, Option.map_eq_some_iff]
  simp only [Server.changedActions, List.mem_insertionSort, List.mem_map, List.mem_filter,
    decide_eq_true_eq, haction]
  constructor
  · rintro ⟨⟨a, ⟨ha, hstamp⟩, rfl⟩, rfl⟩
    exact ⟨⟨a, ⟨ha, rfl⟩, rfl⟩, hstamp⟩
  · rintro ⟨⟨a, ⟨ha, rfl⟩, rfl⟩, hstamp⟩
    exact ⟨⟨a, ⟨ha, hstamp⟩, rfl⟩, rfl⟩

end Polls

/-! ### What the server does to a batch -/

/-- What holds of a server and a later one: rows are stamped by transactions that run, the actions of a batch
stay its actions, and those of a batch that ended stay as they are. -/
structure Server.Later (settings : Settings) (id : Uuid) (s s' : Server) : Prop where
  reachable : (coordinator settings).Reachable s'.state
  issued : s.state.issued ⊆ s'.state.issued
  writes : (s.versions id).Writes (s'.versions id)
  batch : id ∈ s.state.issued → ∀ b', s'.state.db.batch? id = some b' →
    ∃ b, s.state.db.batch? id = some b ∧ b'.keys = b.keys ∧
      (b.state ≠ .running → b'.state = b.state ∧ b'.failure = b.failure ∧ b'.actions = b.actions)

section Steps

variable {settings : Settings} {id : Uuid} {s : Server}

/-- The batch of an id that is looked up. -/
theorem batch?_eq_some_iff {state : State} (hsound : state.Sound) {b : BatchRow} :
    state.db.batch? id = some b ↔ b ∈ state.db.batches ∧ b.id = id := by
  constructor
  · intro hb
    exact ⟨List.mem_of_find?_eq_some hb, by simpa using List.find?_some hb⟩
  · rintro ⟨hb, rfl⟩
    exact find?_eq_some_of_mem hsound.ids_nodup hb

/-- A change of a batch that ended is the heartbeat of a lease that is no more. -/
theorem change_of_ended {b b' : BatchRow} {marks : List Mark} (hb : b.Leased)
    (hended : b.state ≠ .running) (hchange : Change settings b marks b') :
    b'.state = b.state ∧ b'.failure = b.failure ∧ b'.actions = b.actions := by
  cases hchange with
  | heartbeat => exact ⟨rfl, rfl, rfl⟩
  | claim now token worker hrunning => exact absurd hrunning hended
  | makeReady keys hrunning => exact absurd hrunning hended
  | requeue hrunning => exact absurd hrunning hended
  | evict text hrunning => exact absurd hrunning hended
  | stop failure hrunning => exact absurd hrunning hended
  | ends hends =>
    cases hends with
    | finish hattempt | retry hattempt | raise hattempt | unavailable hattempt | block hattempt
    | failRun hattempt | failBuild _ hattempt | resubmit _ hattempt =>
      exact absurd (hb.running_of_lease hattempt.lease_mem) hended

/-- What a submission wrote of a batch fixes its keys. -/
theorem keys_eq_of_submitted {b b' : BatchRow} (heq : b'.submitted = b.submitted) :
    b'.keys = b.keys := by
  have hkeys : ∀ c : BatchRow, c.keys = c.submitted.map (·.1.inputKey) := by
    intro c
    rw [BatchRow.submitted, List.map_map]
    rfl
  rw [hkeys, hkeys, heq]

/-- A step of the coordinator keeps the actions of a batch that was issued, and leaves one that ended as it
is. -/
theorem batch_of_step {state state' : State} {e : RemoteExec.Event}
    (hstate : (coordinator settings).Reachable state)
    (hstep : RemoteExec.step settings state e = some state') (hissued : id ∈ state.issued)
    {b' : BatchRow} (hb' : state'.db.batch? id = some b') :
    ∃ b, state.db.batch? id = some b ∧ b'.keys = b.keys ∧ (b.state ≠ .running →
      b'.state = b.state ∧ b'.failure = b.failure ∧ b'.actions = b.actions) := by
  obtain ⟨hsound, hleased⟩ := leased hstate
  have hsound' := (leased (hstate.step e hstep)).1
  obtain ⟨hmem, hid⟩ := (batch?_eq_some_iff hsound').mp hb'
  rcases exists_becomes hsound (fun b hb ↦ (hleased b hb).leasesRun) hstep hmem with
    ⟨b, hb, ⟨rfl, -⟩ | hchange⟩ | ⟨new, batch, profile, actionClass, high, -, hnew, hsubmitted⟩
  · exact ⟨b', (batch?_eq_some_iff hsound).mpr ⟨hb, hid⟩, rfl, fun _ ↦ ⟨rfl, rfl, rfl⟩⟩
  · exact ⟨b, (batch?_eq_some_iff hsound).mpr ⟨hb, hchange.id ▸ hid⟩,
      keys_eq_of_submitted hchange.submitted,
      fun hended ↦ change_of_ended (hleased b hb) hended hchange⟩
  · rw [← (fresh_of_submittedBatch hsubmitted).id_eq, hid] at hnew
    exact absurd hissued hnew

/-- A transaction gets its number. -/
theorem later_assign (hs : (coordinator settings).Reachable s.state) :
    Server.Later settings id s
      { s with running := s.nextXid :: s.running, nextXid := s.nextXid + 1 } := by
  refine ⟨hs, List.Subset.refl _, ⟨fun x hx ↦ ?_, Nat.le_succ _, fun _ ↦ Or.inl ⟨rfl, rfl⟩⟩,
    fun _ b' hb' ↦ ⟨b', hb', rfl, fun _ ↦ ⟨rfl, rfl, rfl⟩⟩⟩
  rcases List.mem_cons.mp hx with rfl | hx
  · exact Or.inr le_rfl
  · exact Or.inl hx

/-- A transaction ends without a write. -/
theorem later_finish (hs : (coordinator settings).Reachable s.state) (xid : ℕ) :
    Server.Later settings id s { s with running := s.running.erase xid } :=
  ⟨hs, List.Subset.refl _,
    ⟨fun _ hx ↦ Or.inl (List.mem_of_mem_erase hx), le_rfl, fun _ ↦ Or.inl ⟨rfl, rfl⟩⟩,
    fun _ b' hb' ↦ ⟨b', hb', rfl, fun _ ↦ ⟨rfl, rfl, rfl⟩⟩⟩

/-- A transaction that runs commits. -/
theorem later_commit (hs : (coordinator settings).Reachable s.state) {xid : ℕ}
    (hxid : xid ∈ s.running) {e : RemoteExec.Event} {state : State}
    (hstep : RemoteExec.step settings s.state e = some state) (touched : List (Uuid × String)) :
    Server.Later settings id s (s.commit xid state touched) := by
  refine ⟨hs.step e hstep, issued_subset hstep,
    ⟨fun _ hx ↦ Or.inl (List.mem_of_mem_erase hx), le_rfl, fun key ↦ ?_⟩,
    fun hissued b' hb' ↦ batch_of_step hs hstep hissued hb'⟩
  simp only [Server.versions, Server.commit]
  split_ifs with hsame
  · rw [hsame.1]
    exact Or.inl ⟨rfl, rfl⟩
  · exact Or.inr hxid

/-- The coordinator reads, or time passes. -/
theorem later_read (hs : (coordinator settings).Reachable s.state) {e : RemoteExec.Event}
    {state : State} (hstep : RemoteExec.step settings s.state e = some state)
    (hsame : state.db = s.state.db) : Server.Later settings id s { s with state } := by
  refine ⟨hs.step e hstep, issued_subset hstep, ⟨fun _ hx ↦ Or.inl hx, le_rfl, fun key ↦ ?_⟩,
    fun hissued b' hb' ↦ batch_of_step hs hstep hissued hb'⟩
  refine Or.inl ⟨?_, rfl⟩
  simp only [Server.versions, hsame]

end Steps

/-! ### The invariant -/

namespace Served

/-- The stream is up to date with a number: what changed since the snapshot was stamped with it or a later
one, and no action of the snapshot is gone from the batch. -/
structure Current (id : Uuid) (since : ℕ) (s : Served) : Prop where
  issued : id ∈ s.server.state.issued
  since : (s.server.versions id).Since s.stream.snapshot since
  kept : ∀ b, s.server.state.db.batch? id = some b → ∀ key, (s.stream.snapshot key).isSome → key ∈ b.keys

/-- The batch ended with what the snapshot has, which is final. -/
structure Final (id : Uuid) (state : BatchState) (failure : Option String) (s : Served) : Prop where
  ended : state ≠ .running
  issued : id ∈ s.server.state.issued
  finished : ∀ key status, s.stream.snapshot key = some status → status.state.unfinished = false
  same : ∀ b, s.server.state.db.batch? id = some b → b.state = state ∧ b.failure = failure ∧
    ∀ key, (b.action? key).map (·.status) = s.stream.snapshot key

/-- No line names the batch yet. -/
def Unended (s : Served) : Prop := ∀ state failure, Line.batch state failure ∉ s.stream.lines

/-- What the stream knows where it is. -/
def Known (id : Uuid) (s : Served) : Prop :=
  match s.stream.phase with
  | .started => s.Unended ∧ view s.stream.lines = s.stream.snapshot ∧ s.stream.snapshot = fun _ ↦ none
  | .polled batch since => s.Unended ∧ s.Current id since ∧
    (batch.actions.map (·.inputKey)).Nodup ∧
    (∀ key, (batch.actions.find? (·.inputKey = key)).or (view s.stream.lines key) =
      s.stream.snapshot key) ∧
    (batch.state ≠ .running → s.Final id batch.state batch.failure)
  | .sleeping since => s.Unended ∧ s.Current id since ∧ view s.stream.lines = s.stream.snapshot
  | .over => view s.stream.lines = s.stream.snapshot ∧ (s.Unended ∨
    ∃ lines state failure, s.stream.lines = lines ++ [.batch state failure] ∧
      (∀ state failure, Line.batch state failure ∉ lines) ∧ s.Final id state failure)

/-- The invariant. -/
structure Sound (settings : Settings) (id : Uuid) (s : Served) : Prop where
  reachable : (coordinator settings).Reachable s.server.state
  seen_eq : s.stream.seen = view s.stream.lines
  known : s.Known id

variable {settings : Settings} {id : Uuid} {s : Served} {server : Server}

theorem Current.later {since : ℕ} (hs : s.Current id since)
    (hlater : s.server.Later settings id server) :
    Current id since { s with server } := by
  refine ⟨hlater.issued hs.issued, hs.since.write hlater.writes, fun b' hb' key hkey ↦ ?_⟩
  obtain ⟨b, hb, hkeys, -⟩ := hlater.batch hs.issued b' hb'
  rw [hkeys]
  exact hs.kept b hb key hkey

theorem Final.later {state : BatchState} {failure : Option String} (hs : s.Final id state failure)
    (hlater : s.server.Later settings id server) :
    Final id state failure { s with server } := by
  refine ⟨hs.ended, hlater.issued hs.issued, hs.finished, fun b' hb' ↦ ?_⟩
  obtain ⟨b, hb, -, hsame⟩ := hlater.batch hs.issued b' hb'
  obtain ⟨hstate, hfailure, hactions⟩ := hs.same b hb
  obtain ⟨hstate', hfailure', hactions'⟩ := hsame (hstate ▸ hs.ended)
  refine ⟨hstate'.trans hstate, hfailure'.trans hfailure, fun key ↦ ?_⟩
  rw [BatchRow.action?, hactions']
  exact hactions key

/-- What the server does meanwhile keeps the invariant. -/
theorem Sound.later (hs : s.Sound settings id) (hlater : s.server.Later settings id server) :
    Sound settings id { s with server } := by
  refine ⟨hlater.reachable, hs.seen_eq, ?_⟩
  have hknown := hs.known
  unfold Known at hknown ⊢
  dsimp only
  split at hknown
  · exact hknown
  · obtain ⟨hunended, hcurrent, hnodup, hoverlay, hfinal⟩ := hknown
    exact ⟨hunended, hcurrent.later hlater, hnodup, hoverlay,
      fun hended ↦ (hfinal hended).later hlater⟩
  · obtain ⟨hunended, hcurrent, hview⟩ := hknown
    exact ⟨hunended, hcurrent.later hlater, hview⟩
  · obtain ⟨hview, hended⟩ := hknown
    refine ⟨hview, hended.imp_right ?_⟩
    rintro ⟨lines, state, failure, hlines, hfirst, hfinal⟩
    exact ⟨lines, state, failure, hlines, hfirst, hfinal.later hlater⟩

/-- Assumes: what a client has seen is the snapshot, and the stream is up to date. A poll reads what changed
since, which completes what was seen to the snapshot it reads. -/
theorem Sound.poll (hs : s.Sound settings id) (hunended : s.Unended)
    (hview : view s.stream.lines = s.stream.snapshot) {since : ℕ}
    (hsince : (s.server.versions id).Since s.stream.snapshot since)
    (hkept : ∀ b, s.server.state.db.batch? id = some b → ∀ key,
      (s.stream.snapshot key).isSome → key ∈ b.keys) : (s.poll id since).Sound settings id := by
  obtain ⟨hsound, hleased⟩ := leased hs.reachable
  unfold Served.poll Server.changes
  cases hb : s.server.state.db.batch? id with
  | none => exact ⟨hs.reachable, hs.seen_eq, hview, Or.inl hunended⟩
  | some b =>
    obtain ⟨hmem, rfl⟩ := (batch?_eq_some_iff hsound).mp hb
    have hnodup := (hleased b hmem).keys_nodup
    have hrow : ∀ key, (s.server.versions b.id).row key = (b.action? key).map (·.status) := by
      intro key
      change (s.server.state.db.row? (b.id, key)).map _ = _
      rw [row?_of_batch? hb]
    have hsame : ∀ b', s.server.state.db.batch? b.id = some b' → b' = b :=
      fun b' hb' ↦ Option.some.inj (hb'.symm.trans hb)
    refine ⟨hs.reachable, hs.seen_eq, hunended,
      ⟨hsound.ids_issued b hmem, Versions.since_xmin _, fun b' hb' key hkey ↦ ?_⟩,
      keys_nodup_changedActions hnodup since, fun key ↦ ?_, fun hended ↦
      ⟨hended, hsound.ids_issued b hmem, fun key status hstatus ↦ ?_, fun b' hb' ↦ ?_⟩⟩
    · rw [hsame b' hb']
      obtain ⟨status, hstatus⟩ := Option.isSome_iff_exists.mp hkey
      obtain ⟨a, ha, -⟩ := Option.map_eq_some_iff.mp ((hrow key).symm.trans hstatus)
      obtain ⟨hamem, rfl⟩ := BatchRow.action?_eq_some ha
      exact List.mem_map_of_mem hamem
    · have hoverlay := hsince.overlay (fun k hk ↦ ?_) key
      · rw [hrow] at hoverlay
        change ((s.server.changedActions b since).find? _).or (view s.stream.lines key) = _
        rw [find?_changedActions hnodup, hview]
        exact hoverlay.trans (hrow key).symm
      · rw [hrow, Option.isSome_map]
        obtain ⟨a, ha, hkey⟩ := List.mem_map.mp (hkept b hb k hk)
        rw [← hkey]
        exact Option.isSome_iff_exists.mpr ⟨a, find?_eq_some_of_mem hnodup ha⟩
    · obtain ⟨a, ha, rfl⟩ := Option.map_eq_some_iff.mp ((hrow key).symm.trans hstatus)
      exact (hleased b hmem).ended hended a (BatchRow.action?_eq_some ha).1
    · rw [hsame b' hb']
      exact ⟨rfl, rfl, fun key ↦ (hrow key).symm⟩

/-- The lines that a poll makes complete what was seen to its snapshot. -/
theorem Sound.emit (hs : s.Sound settings id) {batch : BatchStatus} {since : ℕ}
    (hphase : s.stream.phase = .polled batch since) (quiet : Bool) :
    Sound settings id { s with stream := EventStream.emit batch since quiet s.stream } := by
  have hknown := hs.known
  simp only [Known, hphase] at hknown
  obtain ⟨hunended, hcurrent, hnodup, hoverlay, hfinal⟩ := hknown
  have hseen : view (s.stream.lines ++ (emitActions s.stream.seen batch.actions).2) =
      (emitActions s.stream.seen batch.actions).1 := by
    rw [view, List.foldl_append, ← view, ← hs.seen_eq, foldl_see_emitActions]
  have hsnapshot : (emitActions s.stream.seen batch.actions).1 = s.stream.snapshot := by
    funext key
    rw [emitActions_seen hnodup, hs.seen_eq, hoverlay]
  have hlines : ∀ state failure, Line.batch state failure ∉
      s.stream.lines ++ (emitActions s.stream.seen batch.actions).2 := by
    intro state failure hmem
    rcases List.mem_append.mp hmem with hmem | hmem
    · exact hunended state failure hmem
    · exact batch_notMem_emitActions state failure hmem
  unfold EventStream.emit
  dsimp only
  by_cases hended : batch.state ≠ .running
  · rw [if_pos hended]
    have hview : view (s.stream.lines ++ (emitActions s.stream.seen batch.actions).2 ++
        [.batch batch.state batch.failure]) = (emitActions s.stream.seen batch.actions).1 := by
      rw [view, List.foldl_append, ← view, hseen]
      rfl
    obtain ⟨hended, hissued, hfinished, hsame⟩ := hfinal hended
    exact ⟨hs.reachable, hview.symm, hview.trans hsnapshot,
      Or.inr ⟨_, batch.state, batch.failure, rfl, hlines, hended, hissued, hfinished, hsame⟩⟩
  · rw [if_neg hended]
    have hview : view (s.stream.lines ++ (emitActions s.stream.seen batch.actions).2 ++
        if quiet then [.blank] else []) = (emitActions s.stream.seen batch.actions).1 := by
      rw [view, List.foldl_append, ← view, hseen]
      cases quiet <;> rfl
    refine ⟨hs.reachable, hview.symm, fun state failure hmem ↦ ?_,
      ⟨hcurrent.issued, hcurrent.since, hcurrent.kept⟩, hview.trans hsnapshot⟩
    rcases List.mem_append.mp hmem with hmem | hmem
    · exact hlines state failure hmem
    · cases quiet <;> simp at hmem

/-- Every event keeps the invariant. -/
theorem Sound.step (hs : s.Sound settings id) {e : Event} {s' : Served}
    (hstep : step settings id s e = some s') : s'.Sound settings id := by
  cases e with
  | assign =>
    obtain rfl := Option.some.inj hstep
    exact hs.later (later_assign hs.reachable)
  | finish xid =>
    obtain rfl := Option.some.inj hstep
    exact hs.later (later_finish hs.reachable xid)
  | commit xid e touched =>
    simp only [EventStream.step] at hstep
    split_ifs at hstep with hxid
    obtain ⟨state, hstate, rfl⟩ := Option.map_eq_some_iff.mp hstep
    exact hs.later (later_commit hs.reachable hxid hstate touched)
  | read e =>
    simp only [EventStream.step] at hstep
    split at hstep
    · rename_i state hstate
      split_ifs at hstep with hsame
      obtain rfl := Option.some.inj hstep
      exact hs.later (later_read hs.reachable hstate hsame)
    · cases hstep
  | poll =>
    have hknown := hs.known
    simp only [EventStream.step] at hstep
    split at hstep
    · rename_i hphase
      obtain rfl := Option.some.inj hstep
      simp only [Known, hphase] at hknown
      obtain ⟨hunended, hview, hnone⟩ := hknown
      refine hs.poll hunended hview ⟨fun _ _ ↦ Nat.zero_le _, Nat.zero_le _, fun _ ↦
        Or.inr (Nat.zero_le _)⟩ fun b _ key hkey ↦ ?_
      rw [hnone] at hkey
      cases hkey
    · rename_i since hphase
      obtain rfl := Option.some.inj hstep
      simp only [Known, hphase] at hknown
      obtain ⟨hunended, hcurrent, hview⟩ := hknown
      exact hs.poll hunended hview hcurrent.since hcurrent.kept
    · cases hstep
  | emit quiet =>
    simp only [EventStream.step] at hstep
    split at hstep
    · rename_i batch since hphase
      obtain rfl := Option.some.inj hstep
      exact hs.emit hphase quiet
    · cases hstep

end Served

/-- In every reachable state the invariant holds. -/
theorem sound {settings : Settings} {state : State} {nextXid : ℕ} {id : Uuid}
    (hstate : (coordinator settings).Reachable state) {s : Served}
    (hs : (eventStream settings state nextXid id).Reachable s) : s.Sound settings id := by
  refine hs.invariant ⟨hstate, rfl, fun _ _ ↦ List.not_mem_nil, rfl, rfl⟩
    fun _ _ _ _ hsound hstep ↦ hsound.step hstep

/-- Assumes: a server that `changed_xid` was added to in a reachable state of the coordinator. Whenever no
lines of a poll are left to send, what a client has seen is the batch's actions in the snapshot of the last
poll. A line that names the batch is the last, when it ended and every action's last status was sent. -/
theorem event_stream_complete {settings : Settings} {state : State} {nextXid : ℕ} {id : Uuid}
    (hstate : (coordinator settings).Reachable state) {s : Served}
    (hs : (eventStream settings state nextXid id).Reachable s) :
    ((∀ batch since, s.stream.phase ≠ .polled batch since) →
      view s.stream.lines = s.stream.snapshot) ∧
    (∀ state failure, .batch state failure ∈ s.stream.lines → ∃ lines,
      s.stream.lines = lines ++ [.batch state failure] ∧ state ≠ .running ∧
      view lines = s.stream.snapshot ∧
      (∀ key status, view lines key = some status → status.state.unfinished = false) ∧
      ∀ b, s.server.state.db.batch? id = some b → b.state = state ∧ b.failure = failure ∧
        ∀ key, view lines key = (b.action? key).map (·.status)) := by
  have hknown := (sound hstate hs).known
  unfold Served.Known at hknown
  refine ⟨fun hphase ↦ ?_, fun state failure hline ↦ ?_⟩
  · split at hknown
    · exact hknown.2.1
    · rename_i batch since hpolled
      exact absurd hpolled (hphase batch since)
    · exact hknown.2.2
    · exact hknown.1
  · split at hknown
    · exact absurd hline (hknown.1 state failure)
    · exact absurd hline (hknown.1 state failure)
    · exact absurd hline (hknown.1 state failure)
    · obtain ⟨hview, hunended | ⟨lines, state', failure', hlines, hfirst, hfinal⟩⟩ := hknown
      · exact absurd hline (hunended state failure)
      · rw [hlines, List.mem_append, List.mem_singleton] at hline
        obtain ⟨rfl, rfl⟩ := Line.batch.inj (hline.resolve_left (hfirst state failure))
        have hseen : view lines = s.stream.snapshot := by
          rw [← hview, hlines, view, view, List.foldl_append]
          rfl
        refine ⟨lines, hlines, hfinal.ended, hseen, fun key status hstatus ↦ ?_, fun b hb ↦ ?_⟩
        · exact hfinal.finished key status (hseen ▸ hstatus)
        · obtain ⟨hbstate, hbfailure, hactions⟩ := hfinal.same b hb
          exact ⟨hbstate, hbfailure, fun key ↦ hseen ▸ (hactions key).symm⟩

/-- Transaction 4 is the older one and claims an action after transaction 5 made it ready and a poll read
that. The batch is cancelled then. -/
def samplePolls : List Event :=
  [.assign, .commit 3 (.submit 0 sampleBatch "default" .build) [], .assign, .assign,
    .read (.readReleasable none), .commit 5 (.makeReady 0 [⟨0, "a", []⟩] fun _ ↦ some true) [],
    .poll, .emit false, .commit 4 (.claim 0 [.standard] "worker" 1 []) [], .poll, .emit true,
    .assign, .commit 6 (.cancel 0) [], .poll, .emit false]

theorem samplePolls_isSome : ((eventStream {} (coordinator {}).initial 3 0).run
    (eventStream {} (coordinator {}).initial 3 0).initial samplePolls).isSome := by
  decide +kernel

theorem event_stream_complete_samplePolls : ∃ lines,
    (((eventStream {} (coordinator {}).initial 3 0).run
      (eventStream {} (coordinator {}).initial 3 0).initial samplePolls).get
        samplePolls_isSome).stream.lines = lines ++ [.batch .cancelled none] := by
  obtain ⟨lines, hlines, -⟩ := (event_stream_complete .initial
    (Machine.reachable_of_run samplePolls_isSome)).2 .cancelled none (by decide +kernel)
  exact ⟨lines, hlines⟩

end EventStream

end Holbuild.RemoteExec
