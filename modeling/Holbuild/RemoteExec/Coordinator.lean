import Holbuild.Library.Machine
import Holbuild.RemoteExec.Changes

/-!
# The coordinator as a machine over its database

The state is the database, the clock, and what the loops of the coordinator have read of it. The
methods that work in several transactions first read what to do and then do it, one transaction for
each item, while other transactions come between: `release` reads `RELEASABLE`, `expire_leases` the
expired leases and `fail_overdue` the overdue batches. What was read so is kept in the state, and the
later transaction may take any of it, with the cache answering anything.

`step` is one transaction. A transaction that raises, or finds nothing to do, leaves the database as it
is. `claimRow` is the row that `CLAIM` selects in `_claim`; the rows that other transactions hold locks
of, which it skips, are part of the event.

`step_effect` says what a step does to the batches: it deletes some, adds one (`Submitted`), or changes
one as `Change` says. `invariant_of_changes` is the induction that gives every invariant of batches.
-/

set_option autoImplicit false
set_option relaxedAutoImplicit false

namespace Holbuild.RemoteExec

open Library

/-! ### The database -/

/-- A row of `peak_hints`. -/
structure PeakHint where
  package : String
  theory : String
  profile : String
  peakRssMb : ℤ
  updatedAt : Time
deriving DecidableEq

/-- The tables. -/
structure Db where
  batches : List BatchRow
  peakHints : List PeakHint
deriving DecidableEq

namespace Db

/-- The row of a batch. -/
def batch? (db : Db) (id : Uuid) : Option BatchRow := db.batches.find? (·.id = id)

/-- The row of an action, by the id of its batch and its key. -/
def row? (row : Uuid × String) (db : Db) : Option ActionRow :=
  (db.batch? row.1).bind (·.action? row.2)

/-- The batch that a lease is of. -/
def leased? (db : Db) (token : Uuid) : Option BatchRow :=
  db.batches.find? fun b ↦ b.leases.any (·.attemptToken = token)

/-- One change to the row of a batch. -/
def modify (id : Uuid) (f : BatchRow → BatchRow) (db : Db) : Db :=
  { db with batches := db.batches.map fun b ↦ if b.id = id then f b else b }

/-- The write of `_record_peak`. -/
def storePeak (now : Time) (profile : String) (peak : Peak) (db : Db) : Db :=
  let same (h : PeakHint) := h.package = peak.package ∧ h.theory = peak.theory ∧ h.profile = profile
  { db with peakHints :=
      if db.peakHints.any fun h ↦ same h then
        db.peakHints.map fun h ↦
          if same h then { h with peakRssMb := max h.peakRssMb peak.peakRssMb, updatedAt := now } else h
      else db.peakHints ++ [⟨peak.package, peak.theory, profile, peak.peakRssMb, now⟩] }

/-! ### Submission -/

/-- Whether a hint is about a theory of a batch submitted under a profile. -/
def hinted (batch : Batch) (profile : String) (h : PeakHint) : Bool :=
  h.profile = profile && batch.actions.any fun a ↦ splitTheory a.theory = (h.package, h.theory)

/-- The theories of a batch that a hint places on the high tier. -/
def highTheories (settings : Settings) (batch : Batch) (profile : String) (db : Db) : List String :=
  (db.peakHints.filter fun h ↦ hinted batch profile h && settings.standardTierMb ≤ h.peakRssMb).map
    fun h ↦ h.package ++ ":" ++ h.theory

/-- The row of an action of a submitted batch. Every action has a priority, so the default of the
lookup is never read. -/
def submittedAction (batch : Batch) (actionClass : ActionClass) (high : List String)
    (priority : List (String × Priority)) (a : BatchAction) : ActionRow :=
  let p := (priority.lookup a.inputKey).getD ⟨0, 0⟩
  { inputKey := a.inputKey
    acKey := a.acKey
    specSha256 := a.specSha256
    theory := a.theory
    remainingDeps := batch.edges.countP (·.1 = a.inputKey)
    state := .waiting
    tier := if a.theory ∈ high then .high else .standard
    attempts := 0
    lastFailure := none
    logSha256 := none
    criticalDepth := p.criticalDepth
    descendantCount := p.descendantCount
    lastClaimedAt := none
    actionClass }

/-- The row of a submitted batch. -/
def submittedBatch (now : Time) (id : Uuid) (batch : Batch) (profile : String)
    (actionClass : ActionClass) (high : List String) : Except DagError BatchRow :=
  (dagPriorities (batch.actions.map (·.inputKey)) batch.edges).map fun priority ↦ {
    id
    createdAt := now
    state := if batch.actions = [] then .done else .running
    failure := none
    profile
    actions := batch.actions.map (submittedAction batch actionClass high priority)
    edges := batch.edges
    leases := [] }

/-- `submit`. -/
def submit (settings : Settings) (now : Time) (id : Uuid) (batch : Batch) (profile : String)
    (actionClass : ActionClass) (db : Db) : Except DagError Db :=
  (submittedBatch now id batch profile actionClass
    (db.highTheories settings batch profile)).map fun b ↦
      { batches := db.batches ++ [b]
        peakHints := db.peakHints.map fun h ↦
          if hinted batch profile h then { h with updatedAt := now } else h }

/-! ### Claims -/

/-- The number of actions of class `run` that are running. -/
def runningRuns (db : Db) : ℕ := (db.batches.map BatchRow.runningRuns).sum

/-- Whether a row is ready, of one of the tiers, and of a class that may be claimed. -/
def claimable (tiers : List Tier) (available : Bool) (a : ActionRow) : Bool :=
  a.state = .ready && a.tier ∈ tiers && (a.actionClass = .build || available)

/-- What `CLAIM` orders by, text in the order of its code points. A batch no action of which was claimed
comes before those with one. -/
structure ClaimRank where
  isRun : Bool
  tier : ℕ
  runningCount : ℕ
  lastClaimedAt : Option Time
  createdAt : Time
  criticalDepth : ℕ
  descendantCount : ℕ
  theory : String
  inputKey : String

/-- The rank of a row. -/
def claimRank (tiers : List Tier) (b : BatchRow) (a : ActionRow) : ClaimRank where
  isRun := a.actionClass = .run
  tier := tiers.idxOf a.tier
  runningCount := b.actions.countP (·.state = .running)
  lastClaimedAt := (b.actions.filterMap (·.lastClaimedAt)).max?
  createdAt := b.createdAt
  criticalDepth := a.criticalDepth
  descendantCount := a.descendantCount
  theory := a.theory
  inputKey := a.inputKey

/-- `ORDER BY`. -/
def ClaimRank.compare (x y : ClaimRank) : Ordering :=
  (Ord.compare x.isRun y.isRun).then <| (Ord.compare x.tier y.tier).then <|
  (Ord.compare x.runningCount y.runningCount).then <|
  (Ord.compare x.lastClaimedAt y.lastClaimedAt).then <|
  (Ord.compare x.createdAt y.createdAt).then <|
  (Ord.compare y.criticalDepth x.criticalDepth).then <|
  (Ord.compare y.descendantCount x.descendantCount).then <|
  (Ord.compare x.theory y.theory).then <| Ord.compare x.inputKey y.inputKey

/-- The first of the ranked items, in the order of their ranks. -/
def firstRanked {α : Type} (rank : α → ClaimRank) : List α → Option α
  | [] => none
  | x :: rest => some (rest.foldl
      (fun best y ↦ if (rank y).compare (rank best) = .lt then y else best) x)

/-- `CLAIM`: the ready row to claim next, of those that no other transaction holds a lock of. A batch of
`ready_batches` is a running one with such a row, which the outer condition says again. -/
def claimQuery (settings : Settings) (tiers : List Tier) (allowRun : Bool)
    (locked : List (Uuid × String)) (db : Db) : Option (BatchRow × ActionRow) :=
  let available := allowRun && db.runningRuns < settings.runSlots
  firstRanked (fun r ↦ claimRank tiers r.1 r.2)
    ((db.batches.filter (·.state = .running)).flatMap fun b ↦
      (b.actions.filter fun a ↦ claimable tiers available a && (b.id, a.inputKey) ∉ locked).map (b, ·))

/-- `SELECT EXISTS`: whether a run of the tiers is ready, in any batch. -/
def readyRun (tiers : List Tier) (db : Db) : Bool :=
  db.batches.any fun b ↦ b.actions.any fun a ↦
    a.state = .ready && a.actionClass = .run && a.tier ∈ tiers

/-- The row that `_claim` selects: a build, or else a run when one is ready and there is a slot. -/
def claimRow (settings : Settings) (tiers : List Tier) (locked : List (Uuid × String)) (db : Db) :
    Option (BatchRow × ActionRow) :=
  match db.claimQuery settings tiers false locked with
  | some row => some row
  | none =>
    if settings.runSlots = 0 || !db.readyRun tiers then none
    else db.claimQuery settings tiers true locked

/-! ### What the loops read -/

/-- A row of `RELEASABLE`, with the input and action-cache keys of the parents. -/
structure Candidate where
  batchId : Uuid
  inputKey : String
  parents : List (String × String)
deriving DecidableEq

/-- `RELEASABLE`, for one batch or for every batch. An edge's parent is an action of the batch, so the
default of the lookup is never read. -/
def releasable (batchId : Option Uuid) (db : Db) : List Candidate :=
  (db.batches.filter fun b ↦ b.state = .running && batchId.all (b.id = ·)).flatMap fun b ↦
    (b.actions.filter fun a ↦ a.state = .waiting && a.remainingDeps = 0).map fun a ↦
      ⟨b.id, a.inputKey, (b.edges.filter (·.1 = a.inputKey)).map fun e ↦
        (e.2, ((b.action? e.2).map (·.acKey)).getD "")⟩

/-- The leases that `expire_leases` reads, with their batches. -/
def expiredLeases (now : Time) (db : Db) : List (Uuid × Uuid) :=
  db.batches.flatMap fun b ↦
    (b.leases.filter (·.expiresAt ≤ now)).map fun l ↦ (l.attemptToken, b.id)

/-- The batches that `fail_overdue` reads. -/
def overdue (settings : Settings) (now : Time) (db : Db) : List Uuid :=
  (db.batches.filter fun b ↦
    b.state = .running && b.createdAt < now - settings.batchDeadline).map (·.id)

/-- Whether `delete_expired` may delete a batch. -/
def retired (settings : Settings) (now : Time) (b : BatchRow) : Bool :=
  b.state ≠ .running && b.createdAt < now - hours settings.retentionHours

end Db

/-- The actions among the candidates whose parents the cache all holds. -/
def presentKeys (present : String → Option Bool) (candidates : List Db.Candidate) : List String :=
  (candidates.filter fun c ↦ c.parents.all fun p ↦ present p.2 = some true).map (·.inputKey)

/-! ### Transactions -/

/-- The database, the clock, the tokens and batch ids drawn, and what the loops have read. -/
structure State where
  now : Time
  db : Db
  issued : List Uuid
  releasable : List Db.Candidate
  expired : List (Uuid × Uuid)
  overdue : List Uuid

/-- Time passing, a transaction, or a read. -/
inductive Event
  | tick (elapsed : ℕ)
  | submit (id : Uuid) (batch : Batch) (profile : String) (actionClass : ActionClass)
  | claim (started : Time) (tiers : List Tier) (worker : String) (token : Uuid)
    (locked : List (Uuid × String))
  | heartbeat (token : Uuid)
  | complete (token : Uuid) (result : Result)
  | readExpired
  | expireLease (token id : Uuid)
  | readReleasable (batchId : Option Uuid)
  | makeReady (id : Uuid) (candidates : List Db.Candidate) (present : String → Option Bool)
  | requeueEvicted (id : Uuid) (parent : String)
  | cancel (id : Uuid)
  | readOverdue
  | failOverdue (id : Uuid)
  | deleteExpired (ids : List Uuid)
  | deleteHints

/-- One event. The `now()` of a claim is the time its transaction started. An event that cannot happen has
no next state: a token or id drawn twice, a transaction on what no loop has read, or a deletion that the
conditions do not select. -/
def step (settings : Settings) (s : State) : Event → Option State
  | .tick elapsed => some { s with now := s.now + elapsed }
  | .submit id batch profile actionClass =>
    if id ∈ s.issued then none
    else
      match s.db.submit settings s.now id batch profile actionClass with
      | .ok db => some { s with db, issued := id :: s.issued }
      | .error _ => none
  | .claim started tiers worker token locked =>
    if token ∈ s.issued ∨ s.now < started then none
    else
      match s.db.claimRow settings tiers locked with
      | none => some s
      | some (b, a) => some { s with
          db := s.db.modify b.id fun b ↦ b.claimAction settings started token worker a.inputKey
          issued := token :: s.issued }
  | .heartbeat token =>
    match s.db.leased? token with
    | none => some s
    | some b => some { s with db := s.db.modify b.id fun b ↦ b.heartbeat settings s.now token }
  | .complete token result =>
    match s.db.leased? token with
    | none => some s
    | some b =>
      match b.complete settings s.now token result with
      | .error _ | .ok none => some s
      | .ok (some (b', peak)) =>
        let db := s.db.modify b.id fun _ ↦ b'
        some { s with db := peak.elim db fun peak ↦ db.storePeak s.now b.profile peak }
  | .readExpired => some { s with expired := s.expired ++ s.db.expiredLeases s.now }
  | .expireLease token id =>
    if (token, id) ∈ s.expired then
      some { s with db := s.db.modify id fun b ↦ b.expireLease settings s.now token }
    else none
  | .readReleasable batchId => some { s with releasable := s.releasable ++ s.db.releasable batchId }
  | .makeReady id candidates present =>
    if ∀ c ∈ candidates, c ∈ s.releasable ∧ c.batchId = id then
      some { s with db := s.db.modify id fun b ↦
        if b.state = .running then b.makeReady (presentKeys present candidates) else b }
    else none
  | .requeueEvicted id parent =>
    if ∃ c ∈ s.releasable, c.batchId = id ∧ parent ∈ c.parents.map (·.1) then
      some { s with db := s.db.modify id fun b ↦ (b.requeueEvicted settings parent).1 }
    else none
  | .cancel id => some { s with db := s.db.modify id BatchRow.cancel }
  | .readOverdue => some { s with overdue := s.overdue ++ s.db.overdue settings s.now }
  | .failOverdue id =>
    if id ∈ s.overdue then some { s with db := s.db.modify id (BatchRow.failOverdue settings) }
    else none
  | .deleteExpired ids =>
    if ids.length ≤ 100 ∧ ∀ b ∈ s.db.batches, b.id ∈ ids → Db.retired settings s.now b then
      some { s with db := { s.db with batches := s.db.batches.filter (·.id ∉ ids) } }
    else none
  | .deleteHints => some { s with db := { s.db with
      peakHints := s.db.peakHints.filter fun h ↦ s.now - days settings.hintTtlDays ≤ h.updatedAt } }

/-- The coordinator, from an empty database. -/
def coordinator (settings : Settings) : Machine State Event where
  initial := ⟨0, ⟨[], []⟩, [], [], [], []⟩
  step := step settings

/-- What an event counts for, by batch. -/
def observe (settings : Settings) (s : State) : Event → List (Uuid × Mark)
  | .claim _ tiers _ token locked =>
    match s.db.claimRow settings tiers locked with
    | none => []
    | some (b, a) => [(b.id, .claimed a.inputKey token)]
  | .complete token result =>
    match s.db.leased? token with
    | none => []
    | some b =>
      match b.complete settings s.now token result, b.liveLease? s.now token with
      | .ok (some _), some lease =>
        if result.failure = some .unavailable then [(b.id, .unavailable lease.inputKey)] else []
      | _, _ => []
  | _ => []

/-! ### What a step does to the batches -/

/-- The marks of the batch with an id. -/
def marksOf (id : Uuid) (observed : List (Uuid × Mark)) : List Mark :=
  (observed.filter (·.1 = id)).map (·.2)

/-- What a step makes of a batch that it neither adds nor deletes. -/
def Becomes (settings : Settings) (b : BatchRow) (marks : List Mark) (b' : BatchRow) : Prop :=
  b' = b ∧ marks = [] ∨ Change settings b marks b'

/-- An event submits a batch. -/
def Submits (s : State) (e : Event) (b' : BatchRow) : Prop :=
  ∃ id batch profile actionClass high, e = .submit id batch profile actionClass ∧ id ∉ s.issued ∧
    Db.submittedBatch s.now id batch profile actionClass high = .ok b'

/-- Batches have distinct ids, and ids and tokens were drawn. -/
structure State.Sound (s : State) : Prop where
  ids_nodup : (s.db.batches.map (·.id)).Nodup
  ids_issued : ∀ b ∈ s.db.batches, b.id ∈ s.issued
  tokens_issued : ∀ b ∈ s.db.batches, ∀ l ∈ b.leases, l.attemptToken ∈ s.issued

/-- The actions that leases of a batch name are running. -/
def BatchRow.LeasesRun (b : BatchRow) : Prop :=
  ∀ lease ∈ b.leases, ∀ a ∈ b.actions, a.inputKey = lease.inputKey → a.state = .running

section Steps

variable {settings : Settings} {s s' : State} {e : Event}

/-- The first of ranked items is one of them. -/
theorem mem_of_firstRanked {α : Type} {rank : α → Db.ClaimRank} {items : List α} {x : α}
    (hfirst : Db.firstRanked rank items = some x) : x ∈ items := by
  have hfold : ∀ (rest : List α) (best : α), rest.foldl
      (fun best y ↦ if (rank y).compare (rank best) = .lt then y else best) best ∈ best :: rest := by
    intro rest
    induction rest with
    | nil => exact fun best ↦ List.mem_singleton_self best
    | cons y rest ih =>
      intro best
      rw [List.foldl_cons]
      split
      · exact List.mem_cons_of_mem best (ih y)
      · rcases List.mem_cons.mp (ih best) with heq | hmem
        · rw [heq]
          exact List.mem_cons_self
        · exact List.mem_cons_of_mem best (List.mem_cons_of_mem y hmem)
  cases items with
  | nil => cases hfirst
  | cons best rest => exact Option.some.inj hfirst ▸ hfold rest best

/-- What `CLAIM` selects is a row that may be claimed, of a running batch. -/
theorem claimQuery_eq_some {db : Db} {tiers : List Tier} {allowRun : Bool}
    {locked : List (Uuid × String)} {b : BatchRow} {a : ActionRow}
    (hrow : db.claimQuery settings tiers allowRun locked = some (b, a)) :
    b ∈ db.batches ∧ b.state = .running ∧ a ∈ b.actions ∧
      Db.claimable tiers (allowRun && db.runningRuns < settings.runSlots) a ∧
      (b.id, a.inputKey) ∉ locked := by
  have hmem := mem_of_firstRanked hrow
  simp only [List.mem_flatMap, List.mem_filter, List.mem_map, Prod.mk.injEq, Bool.and_eq_true,
    decide_eq_true_eq] at hmem
  obtain ⟨_, ⟨hb, hrunning⟩, _, ⟨ha, hclaimable, hfree⟩, rfl, rfl⟩ := hmem
  exact ⟨hb, hrunning, ha, by simpa using hclaimable, hfree⟩

/-- What a claim selects is a ready row of a running batch. -/
theorem claimRow_eq_some {db : Db} {tiers : List Tier} {locked : List (Uuid × String)}
    {b : BatchRow} {a : ActionRow} (hrow : db.claimRow settings tiers locked = some (b, a)) :
    b ∈ db.batches ∧ b.state = .running ∧ a ∈ b.actions ∧ a.state = .ready := by
  have hready : ∀ allowRun, db.claimQuery settings tiers allowRun locked = some (b, a) →
      b ∈ db.batches ∧ b.state = .running ∧ a ∈ b.actions ∧ a.state = .ready := by
    intro allowRun hquery
    obtain ⟨hb, hrunning, ha, hclaimable, -⟩ := claimQuery_eq_some hquery
    simp only [Db.claimable, Bool.and_eq_true, decide_eq_true_eq] at hclaimable
    exact ⟨hb, hrunning, ha, hclaimable.1.1⟩
  unfold Db.claimRow at hrow
  split at hrow
  · rename_i row hquery
    exact hready false (hrow ▸ hquery)
  · split_ifs at hrow
    exact hready true hrow

theorem Becomes.id {b b' : BatchRow} {marks : List Mark} (hb : Becomes settings b marks b') :
    b'.id = b.id :=
  hb.elim (fun h ↦ h.1 ▸ rfl) Change.id

/-- Two batches with one id are the same. -/
theorem State.Sound.eq_of_id_eq (hsound : s.Sound) {b b' : BatchRow} (hb : b ∈ s.db.batches)
    (hb' : b' ∈ s.db.batches) (hid : b.id = b'.id) : b = b' :=
  eq_of_key_eq hsound.ids_nodup hb hb' hid

/-- The batch that a lease is of has a lease with its token. -/
theorem leased?_eq_some {db : Db} {token : Uuid} {b : BatchRow} (hb : db.leased? token = some b) :
    b ∈ db.batches :=
  List.mem_of_find?_eq_some hb

/-- Assumes: what becomes of the batch with an id, and no mark of another batch. -/
theorem becomes_modify {observed : List (Uuid × Mark)} {id : Uuid} {f : BatchRow → BatchRow}
    (hobserved : ∀ b ∈ s.db.batches, b.id ≠ id → marksOf b.id observed = [])
    (hf : ∀ b ∈ s.db.batches, b.id = id → Becomes settings b (marksOf b.id observed) (f b))
    (b : BatchRow) (hb : b ∈ s.db.batches) :
    Becomes settings b (marksOf b.id observed) (if b.id = id then f b else b) := by
  by_cases hid : b.id = id
  · rw [if_pos hid]
    exact hf b hb hid
  · rw [if_neg hid]
    exact Or.inl ⟨rfl, hobserved b hb hid⟩

/-- What a batch is when it is submitted: every action waits for its parents, with no attempt, and has
its priority. -/
structure Fresh (id : Uuid) (batch : Batch) (actionClass : ActionClass) (b : BatchRow) : Prop where
  id_eq : b.id = id
  leases_eq : b.leases = []
  edges_eq : b.edges = batch.edges
  keys_eq : b.keys = batch.actions.map (·.inputKey)
  state_eq : b.state = if batch.actions = [] then .done else .running
  waiting : ∀ a ∈ b.actions, a.state = .waiting
  attempts : ∀ a ∈ b.actions, a.attempts = 0
  remainingDeps : ∀ a ∈ b.actions, a.remainingDeps = b.edges.countP (·.1 = a.inputKey)
  class_eq : ∀ a ∈ b.actions, a.actionClass = actionClass
  priorities : dagPriorities b.keys b.edges =
    .ok (b.actions.map fun a ↦ (a.inputKey, a.priority))

/-- A key of a table written from a function is looked up as what the function gives. -/
theorem lookup_map_self {β : Type} (f : String → β) {keys : List String} {key : String}
    (hkey : key ∈ keys) : (keys.map fun k ↦ (k, f k)).lookup key = some (f key) := by
  induction keys with
  | nil => cases hkey
  | cons k rest ih =>
    rw [List.map_cons, List.lookup_cons]
    by_cases heq : key = k
    · simp [heq]
    · rw [beq_false_of_ne heq]
      exact ih ((List.mem_cons.mp hkey).resolve_left heq)

/-- A submitted batch is fresh. -/
theorem fresh_of_submittedBatch {now : Time} {id : Uuid} {batch : Batch} {profile : String}
    {actionClass : ActionClass} {high : List String} {b : BatchRow}
    (hnew : Db.submittedBatch now id batch profile actionClass high = .ok b) :
    Fresh id batch actionClass b := by
  obtain ⟨priority, hpriority, -⟩ := dagPriorities_eq_ok batch.edges_mem batch.acyclic
  obtain ⟨table, htable, rfl⟩ := exists_of_map_eq_ok hnew
  obtain rfl : table = _ := Except.ok.inj (htable.symm.trans hpriority)
  have hactions : ∀ p : ActionRow → Prop,
      (∀ a ∈ batch.actions, p (Db.submittedAction batch actionClass high
        ((batch.actions.map (·.inputKey)).map fun key ↦ (key, priority key)) a)) →
      ∀ a ∈ batch.actions.map (Db.submittedAction batch actionClass high
        ((batch.actions.map (·.inputKey)).map fun key ↦ (key, priority key))), p a := by
    intro p hp a ha
    obtain ⟨action, haction, rfl⟩ := List.mem_map.mp ha
    exact hp action haction
  have hkeys : (batch.actions.map (Db.submittedAction batch actionClass high
      ((batch.actions.map (·.inputKey)).map fun key ↦ (key, priority key)))).map (·.inputKey) =
        batch.actions.map (·.inputKey) := by
    rw [List.map_map]
    rfl
  refine ⟨rfl, rfl, rfl, hkeys, rfl, hactions _ fun _ _ ↦ rfl, hactions _ fun _ _ ↦ rfl,
    hactions _ fun _ _ ↦ rfl, hactions _ fun _ _ ↦ rfl, ?_⟩
  rw [BatchRow.keys, hkeys, hpriority, List.map_map, List.map_map]
  congr 1
  refine List.map_congr_left fun a ha ↦ ?_
  have hkey : a.inputKey ∈ batch.actions.map (·.inputKey) := List.mem_map_of_mem ha
  have hlookup := lookup_map_self priority hkey
  rw [List.map_map] at hlookup
  simp only [Function.comp_apply, Db.submittedAction, ActionRow.priority, hlookup,
    Option.getD_some]

theorem mem_of_mem_marksOf {id : Uuid} {observed : List (Uuid × Mark)} {mark : Mark}
    (hmark : mark ∈ marksOf id observed) : (id, mark) ∈ observed := by
  simp only [marksOf, List.mem_map, List.mem_filter, decide_eq_true_eq] at hmark
  obtain ⟨⟨_, _⟩, ⟨hmem, rfl⟩, rfl⟩ := hmark
  exact hmem

@[simp] theorem marksOf_nil (id : Uuid) : marksOf id [] = [] := rfl

theorem marksOf_self (id : Uuid) (mark : Mark) : marksOf id [(id, mark)] = [mark] := by
  simp [marksOf]

theorem marksOf_other {id id' : Uuid} (mark : Mark) (hne : id' ≠ id) :
    marksOf id' [(id, mark)] = [] := by
  simp [marksOf, hne.symm]

/-- Assumes: distinct ids, and leases of running actions. A step changes batches in place, adds one, or
deletes some. -/
theorem step_effect (hsound : s.Sound) (hruns : ∀ b ∈ s.db.batches, b.LeasesRun)
    (hstep : step settings s e = some s') :
    (∃ change : BatchRow → BatchRow, s'.db.batches = s.db.batches.map change ∧
      ∀ b ∈ s.db.batches, Becomes settings b (marksOf b.id (observe settings s e)) (change b)) ∨
    (∃ b', s'.db.batches = s.db.batches ++ [b'] ∧ Submits s e b' ∧ observe settings s e = []) ∨
    (∃ keep : BatchRow → Bool, s'.db.batches = s.db.batches.filter keep ∧
      observe settings s e = []) := by
  have hsame : s'.db.batches = s.db.batches → observe settings s e = [] →
      ∃ change : BatchRow → BatchRow, s'.db.batches = s.db.batches.map change ∧
        ∀ b ∈ s.db.batches, Becomes settings b (marksOf b.id (observe settings s e)) (change b) := by
    intro hbatches hobserved
    exact ⟨fun b ↦ b, by simpa using hbatches, fun b _ ↦ Or.inl ⟨rfl, by rw [hobserved]; rfl⟩⟩
  have hmodified : ∀ {id : Uuid} {f : BatchRow → BatchRow}, s'.db = s.db.modify id f →
      observe settings s e = [] →
      (∀ b ∈ s.db.batches, b.id = id → f b = b ∨ Change settings b [] (f b)) →
      ∃ change : BatchRow → BatchRow, s'.db.batches = s.db.batches.map change ∧
        ∀ b ∈ s.db.batches, Becomes settings b (marksOf b.id (observe settings s e)) (change b) := by
    intro id f hdb hobserved hf
    refine ⟨fun b ↦ if b.id = id then f b else b, by rw [hdb]; rfl, ?_⟩
    rw [hobserved]
    refine becomes_modify (fun _ _ _ ↦ rfl) fun b hb hid ↦ ?_
    exact (hf b hb hid).imp (fun h ↦ ⟨h, rfl⟩) fun h ↦ h
  cases e with
  | tick | readExpired | readReleasable | readOverdue | deleteHints =>
    obtain rfl := Option.some.inj hstep
    exact Or.inl (hsame rfl rfl)
  | submit id batch profile actionClass =>
    simp only [step, Db.submit] at hstep
    split_ifs at hstep with hissued
    cases hbatch : Db.submittedBatch s.now id batch profile actionClass
        (s.db.highTheories settings batch profile) with
    | error error => simp [hbatch, Except.map] at hstep
    | ok b' =>
      simp only [hbatch, Except.map, Option.some.injEq] at hstep
      subst hstep
      exact Or.inr (Or.inl ⟨b', rfl, ⟨id, batch, profile, actionClass, _, rfl, hissued, hbatch⟩, rfl⟩)
  | claim started tiers worker token locked =>
    left
    simp only [step] at hstep
    split_ifs at hstep with hissued
    cases hrow : s.db.claimRow settings tiers locked with
    | none =>
      simp only [hrow, Option.some.injEq] at hstep
      subst hstep
      exact hsame rfl (by simp [observe, hrow])
    | some row =>
      obtain ⟨b₀, a⟩ := row
      obtain ⟨hb₀, hrunning, ha, hready⟩ := claimRow_eq_some hrow
      simp only [hrow, Option.some.injEq] at hstep
      subst hstep
      have hobserved : observe settings s (.claim started tiers worker token locked) =
          [(b₀.id, .claimed a.inputKey token)] := by
        simp [observe, hrow]
      refine ⟨_, rfl, ?_⟩
      rw [hobserved]
      refine becomes_modify (fun b _ hid ↦ marksOf_other _ hid) fun b hb hid ↦ ?_
      obtain rfl := hsound.eq_of_id_eq hb hb₀ hid
      rw [marksOf_self]
      refine Or.inr (.claim started token worker hrunning ha hready fun htoken ↦ ?_)
      obtain ⟨l, hl, rfl⟩ := List.mem_map.mp htoken
      exact hissued (Or.inl <| hsound.tokens_issued b hb l hl)
  | heartbeat token =>
    left
    simp only [step] at hstep
    cases hleased : s.db.leased? token with
    | none =>
      simp only [hleased, Option.some.injEq] at hstep
      subst hstep
      exact hsame rfl rfl
    | some b₀ =>
      simp only [hleased, Option.some.injEq] at hstep
      subst hstep
      exact hmodified rfl rfl fun b _ _ ↦ Or.inr (.heartbeat s.now token)
  | complete token result =>
    left
    simp only [step] at hstep
    cases hleased : s.db.leased? token with
    | none =>
      simp only [hleased, Option.some.injEq] at hstep
      subst hstep
      exact hsame rfl (by simp [observe, hleased])
    | some b₀ =>
      simp only [hleased] at hstep
      split at hstep
      · rename_i hcomplete
        obtain rfl := Option.some.inj hstep
        exact hsame rfl (by simp [observe, hleased, hcomplete])
      · rename_i hcomplete
        obtain rfl := Option.some.inj hstep
        exact hsame rfl (by simp [observe, hleased, hcomplete])
      · rename_i b' peak hcomplete
        obtain rfl := Option.some.inj hstep
        obtain ⟨lease, hlease, hends⟩ := BatchRow.ending_complete hcomplete
        have hobserved : observe settings s (.complete token result) =
            if result.failure = some .unavailable then [(b₀.id, .unavailable lease.inputKey)]
            else [] := by
          simp only [observe, hleased, hcomplete, hlease]
        refine ⟨fun b ↦ if b.id = b₀.id then b' else b, by cases peak <;> rfl, ?_⟩
        rw [hobserved]
        refine becomes_modify (fun b _ hid ↦ ?_) fun b hb hid ↦ ?_
        · split
          · exact marksOf_other _ hid
          · rfl
        · obtain rfl := hsound.eq_of_id_eq hb (leased?_eq_some hleased) hid
          refine Or.inr ?_
          split at hends
          · rename_i hunavailable
            rw [if_pos hunavailable, marksOf_self]
            exact .ends hends
          · rename_i hunavailable
            rw [if_neg hunavailable, marksOf_nil]
            exact .ends hends
  | expireLease token id =>
    simp only [step] at hstep
    split_ifs at hstep
    obtain rfl := Option.some.inj hstep
    refine Or.inl (hmodified rfl rfl fun b hb _ ↦ ?_)
    exact (BatchRow.ending_expireLease (hruns b hb) _ _).imp_right fun ⟨_, _, _, hends⟩ ↦ .ends hends
  | makeReady id candidates present =>
    simp only [step] at hstep
    split_ifs at hstep
    obtain rfl := Option.some.inj hstep
    refine Or.inl (hmodified rfl rfl fun b _ _ ↦ ?_)
    split
    · rename_i hrunning
      exact Or.inr (.makeReady _ hrunning)
    · exact Or.inl rfl
  | requeueEvicted id parent =>
    simp only [step] at hstep
    split_ifs at hstep
    obtain rfl := Option.some.inj hstep
    exact Or.inl (hmodified rfl rfl fun b _ _ ↦ BatchRow.changed_requeueEvicted parent)
  | cancel id =>
    obtain rfl := Option.some.inj hstep
    refine Or.inl (hmodified rfl rfl fun b _ _ ↦ ?_)
    unfold BatchRow.cancel
    split
    · rename_i hrunning
      exact Or.inr (.stop none hrunning (by simp))
    · exact Or.inl rfl
  | failOverdue id =>
    simp only [step] at hstep
    split_ifs at hstep
    obtain rfl := Option.some.inj hstep
    refine Or.inl (hmodified rfl rfl fun b _ _ ↦ ?_)
    unfold BatchRow.failOverdue
    split
    · rename_i hrunning
      exact Or.inr (.stop _ hrunning (by simp))
    · exact Or.inl rfl
  | deleteExpired ids =>
    simp only [step] at hstep
    split_ifs at hstep
    obtain rfl := Option.some.inj hstep
    exact Or.inr (Or.inr ⟨_, rfl, rfl⟩)

/-- Assumes: distinct ids, and leases of running actions. A batch after a step is what became of one before
it, or the step submits it. -/
theorem exists_becomes (hsound : s.Sound) (hruns : ∀ b ∈ s.db.batches, b.LeasesRun)
    (hstep : step settings s e = some s') {b' : BatchRow} (hb' : b' ∈ s'.db.batches) :
    (∃ b ∈ s.db.batches, Becomes settings b (marksOf b.id (observe settings s e)) b') ∨
      Submits s e b' := by
  rcases step_effect hsound hruns hstep with ⟨change, hbatches, hbecomes⟩ |
    ⟨b₀, hbatches, hsubmits, hobserved⟩ | ⟨keep, hbatches, hobserved⟩
  · rw [hbatches] at hb'
    obtain ⟨b, hb, rfl⟩ := List.mem_map.mp hb'
    exact Or.inl ⟨b, hb, hbecomes b hb⟩
  · rw [hbatches] at hb'
    rcases List.mem_append.mp hb' with hb | hb
    · exact Or.inl ⟨b', hb, Or.inl ⟨rfl, hobserved ▸ rfl⟩⟩
    · exact Or.inr (List.mem_singleton.mp hb ▸ hsubmits)
  · rw [hbatches] at hb'
    exact Or.inl ⟨b', (List.mem_filter.mp hb').1, Or.inl ⟨rfl, hobserved ▸ rfl⟩⟩

/-- What was issued before a step was issued after it. -/
theorem issued_subset (hstep : step settings s e = some s') : s.issued ⊆ s'.issued := by
  cases e with
  | submit | claim =>
    simp only [step] at hstep
    split_ifs at hstep
    split at hstep
    all_goals cases hstep
    all_goals first
      | exact List.subset_cons_self _ _
      | exact List.Subset.refl _
  | heartbeat | complete =>
    simp only [step] at hstep
    split at hstep
    all_goals try split at hstep
    all_goals cases hstep
    all_goals exact List.Subset.refl _
  | expireLease | makeReady | requeueEvicted | failOverdue | deleteExpired =>
    simp only [step] at hstep
    split_ifs at hstep
    cases hstep
    exact List.Subset.refl _
  | _ =>
    cases hstep
    exact List.Subset.refl _

/-- The id of a submitted batch is issued. -/
theorem issued_of_submits {b' : BatchRow} (hsubmits : Submits s e b')
    (hstep : step settings s e = some s') : b'.id ∈ s'.issued := by
  obtain ⟨id, batch, profile, actionClass, high, rfl, hid, hnew⟩ := hsubmits
  simp only [step] at hstep
  split_ifs at hstep
  split at hstep
  · cases hstep
    rw [(fresh_of_submittedBatch hnew).id_eq]
    exact List.mem_cons_self
  · cases hstep

/-- The token of a claim is issued. -/
theorem issued_of_claimed {id : Uuid} {key : String} {token : Uuid}
    (hclaimed : (id, Mark.claimed key token) ∈ observe settings s e)
    (hstep : step settings s e = some s') : token ∈ s'.issued := by
  cases e with
  | claim started tiers worker drawn locked =>
    simp only [observe] at hclaimed
    simp only [step] at hstep
    split_ifs at hstep
    split at hclaimed
    · cases hclaimed
    · rename_i b a hrow
      simp only [hrow, Option.some.injEq] at hstep
      simp only [List.mem_singleton, Prod.mk.injEq, Mark.claimed.injEq] at hclaimed
      rw [← hstep, hclaimed.2.2]
      exact List.mem_cons_self
  | complete drawn result =>
    simp only [observe] at hclaimed
    split at hclaimed
    · cases hclaimed
    · split at hclaimed
      · split at hclaimed <;> simp at hclaimed
      · cases hclaimed
  | _ => cases hclaimed

/-- Assumes: a sound state whose leases are of running actions. It is sound after a step. -/
theorem sound_step (hsound : s.Sound) (hruns : ∀ b ∈ s.db.batches, b.LeasesRun)
    (hstep : step settings s e = some s') : s'.Sound := by
  have hissued := issued_subset hstep
  rcases step_effect hsound hruns hstep with ⟨change, hbatches, hbecomes⟩ |
    ⟨b', hbatches, hsubmits, -⟩ | ⟨keep, hbatches, -⟩
  · have hids : s'.db.batches.map (·.id) = s.db.batches.map (·.id) := by
      rw [hbatches, List.map_map]
      exact List.map_congr_left fun b hb ↦ (hbecomes b hb).id
    refine ⟨hids ▸ hsound.ids_nodup, fun b' hb' ↦ ?_, fun b' hb' l hl ↦ ?_⟩
    · have hid : b'.id ∈ s.db.batches.map (·.id) := hids ▸ List.mem_map_of_mem hb'
      obtain ⟨b, hb, heq⟩ := List.mem_map.mp hid
      exact heq ▸ hissued (hsound.ids_issued b hb)
    · rw [hbatches] at hb'
      obtain ⟨b, hb, rfl⟩ := List.mem_map.mp hb'
      rcases hbecomes b hb with ⟨heq, -⟩ | hchange
      · exact hissued (hsound.tokens_issued b hb l (heq ▸ hl))
      · rcases hchange.tokens hl with ⟨l', hl', heq, -⟩ | hmark
        · exact heq ▸ hissued (hsound.tokens_issued b hb l' hl')
        · exact issued_of_claimed (mem_of_mem_marksOf hmark) hstep
  · obtain ⟨id, batch, profile, actionClass, high, rfl, hid, hnew⟩ := id hsubmits
    have hfresh := fresh_of_submittedBatch hnew
    have hnew : b'.id ∉ s.issued := hfresh.id_eq ▸ hid
    refine ⟨?_, fun b hb ↦ ?_, fun b hb l hl ↦ ?_⟩
    · rw [hbatches, List.map_append, List.map_singleton]
      refine List.Nodup.append hsound.ids_nodup (List.nodup_singleton _) ?_
      refine List.disjoint_singleton.mpr fun hmem ↦ hnew ?_
      obtain ⟨b, hb, heq⟩ := List.mem_map.mp hmem
      exact heq ▸ hsound.ids_issued b hb
    · rw [hbatches] at hb
      rcases List.mem_append.mp hb with hb | hb
      · exact hissued (hsound.ids_issued b hb)
      · rw [List.mem_singleton.mp hb]
        exact issued_of_submits hsubmits hstep
    · rw [hbatches] at hb
      rcases List.mem_append.mp hb with hb | hb
      · exact hissued (hsound.tokens_issued b hb l hl)
      · rw [List.mem_singleton.mp hb, hfresh.leases_eq] at hl
        cases hl
  · have hkept : ∀ b ∈ s'.db.batches, b ∈ s.db.batches := by
      rw [hbatches]
      exact fun b hb ↦ (List.mem_filter.mp hb).1
    refine ⟨?_, fun b hb ↦ hissued (hsound.ids_issued b (hkept b hb)), fun b hb l hl ↦
      hissued (hsound.tokens_issued b (hkept b hb) l hl)⟩
    rw [hbatches]
    exact (List.filter_sublist.map _).nodup hsound.ids_nodup

end Steps

/-! ### Invariants of batches -/

section Invariants

variable {settings : Settings} {P : BatchRow → Prop}

/-- Assumes: a property that submitted batches have, that changes keep, and that says leases are of
running actions. In every reachable state the batches are sound and have it. -/
theorem invariant_of_changes (hruns : ∀ b, P b → b.LeasesRun)
    (hsubmitted : ∀ now id batch profile actionClass high b,
      Db.submittedBatch now id batch profile actionClass high = .ok b → P b)
    (hchange : ∀ b marks b', P b → Change settings b marks b' → P b') {s : State}
    (hs : (coordinator settings).Reachable s) : s.Sound ∧ ∀ b ∈ s.db.batches, P b := by
  have hinitial : (coordinator settings).initial.Sound :=
    ⟨List.nodup_nil, by simp [coordinator], by simp [coordinator]⟩
  refine hs.invariant (P := fun s ↦ s.Sound ∧ ∀ b ∈ s.db.batches, P b)
    ⟨hinitial, by simp [coordinator]⟩ ?_
  rintro s e s' - ⟨hsound, hall⟩ hstep
  have hleases : ∀ b ∈ s.db.batches, b.LeasesRun := fun b hb ↦ hruns b (hall b hb)
  refine ⟨sound_step hsound hleases hstep, ?_⟩
  intro b' hb'
  rcases exists_becomes hsound hleases hstep hb' with ⟨b, hb, ⟨rfl, -⟩ | hchanged⟩ |
    ⟨id, batch, profile, actionClass, high, -, -, hnew⟩
  · exact hall b' hb
  · exact hchange b _ _ (hall b hb) hchanged
  · exact hsubmitted _ _ _ _ _ _ _ hnew

end Invariants

/-! ### A run -/

/-- A batch of two theories, the second of which depends on the first. -/
def sampleBatch : Batch where
  actions := [⟨"a", "ac-a", "spec-a", "p:a"⟩, ⟨"b", "ac-b", "spec-b", "p:b"⟩]
  edges := [("b", "a")]
  keys_nodup := by decide
  edges_mem := by decide
  edges_nodup := by decide
  acyclic := (staticOrder_parentsOf_isSome_iff _).mp (by decide)

/-- The batch is submitted, and its first theory is made ready and claimed. -/
def sampleRun : List Event :=
  [.submit 0 sampleBatch "default" .build, .readReleasable none,
    .makeReady 0 [⟨0, "a", []⟩] fun _ ↦ some true, .claim 0 [.standard] "worker" 1 []]

theorem sampleRun_isSome : ((coordinator {}).run (coordinator {}).initial sampleRun).isSome := by
  decide

/-- The state after the run. -/
def sampleState : State := ((coordinator {}).run (coordinator {}).initial sampleRun).get sampleRun_isSome

theorem reachable_sampleState : (coordinator {}).Reachable sampleState :=
  Machine.reachable_of_run sampleRun_isSome

end Holbuild.RemoteExec
