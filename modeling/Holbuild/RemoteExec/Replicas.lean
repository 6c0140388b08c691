import Holbuild.RemoteExec.RunSlots

/-!
# Claims of several replicas, statement by statement

The transactions of `_claim`, of any number of coordinator processes on one database, at the granularity
of their statements under READ COMMITTED. Each statement reads the rows committed when it starts. `CLAIM`
takes its snapshot (`snapshot`) and ends when it has locked a row (`select`): it goes through the rows of
the snapshot in its order, skips those that others hold locks of or that no longer qualify when it gets to
them (`skipped`), and locks the first that is free and still qualifies in its current version. The
advisory lock is held until the transaction ends. What `UPDATE` and `INSERT` write is seen by others at the
commit; until then the lock keeps the row as `UPDATE` read it.

The other transactions are steps of the coordinator, which wait for the locks of the rows they change.

`Cluster.Sound` is the invariant. A claim that may admit runs holds the advisory lock while the number of
running runs is at most what it counted. `refines` says that the committed state is one of the coordinator
whose claims are atomic, so that what holds there of every reachable state holds here.
-/

set_option autoImplicit false
set_option relaxedAutoImplicit false

namespace Holbuild.RemoteExec

open Library

/-- A row that is looked up is of a batch. -/
theorem Db.row?_eq_some {db : Db} {row : Uuid × String} {a : ActionRow} (ha : db.row? row = some a) :
    ∃ b ∈ db.batches, b.id = row.1 ∧ a ∈ b.actions ∧ a.inputKey = row.2 := by
  obtain ⟨b, hb, ha⟩ := Option.bind_eq_some_iff.mp ha
  obtain ⟨hmem, hkey⟩ := BatchRow.action?_eq_some ha
  exact ⟨b, List.mem_of_find?_eq_some hb, by simpa using List.find?_some hb, hmem, hkey⟩

/-- Assumes: an update of a row that leaves its key alone. The rows of the other actions are found as they
were. -/
theorem BatchRow.action?_updateAction {b : BatchRow} {key key' : String} (hne : key' ≠ key)
    {f : ActionRow → ActionRow} (hf : ∀ a, (f a).inputKey = a.inputKey) :
    (b.updateAction key f).action? key' = b.action? key' := by
  have hkey : ∀ a, (if a.inputKey = key then f a else a).inputKey = a.inputKey := by
    intro a
    split
    · exact hf a
    · rfl
  rw [action?, action?, updateAction, mapActions_actions, List.find?_map]
  simp only [Function.comp_def, hkey]
  cases hfind : b.actions.find? (·.inputKey = key') with
  | none => rfl
  | some a =>
    have ha : a.inputKey = key' := by simpa using List.find?_some hfind
    simp [ha, hne]

/-- A claim leaves the rows of the other actions alone. -/
theorem Db.row?_claimAction {db : Db} {settings : Settings} {now : Time} {token : Uuid}
    {worker : String} {row row' : Uuid × String} (hne : row' ≠ row) :
    (db.modify row.1 fun b ↦ b.claimAction settings now token worker row.2).row? row' =
      db.row? row' := by
  have hid : ∀ b : BatchRow,
      (if b.id = row.1 then b.claimAction settings now token worker row.2 else b).id = b.id := by
    intro b
    split <;> rfl
  rw [row?, row?, batch?, batch?, Db.modify, List.find?_map]
  simp only [Function.comp_def, hid]
  cases hfind : db.batches.find? (·.id = row'.1) with
  | none => rfl
  | some b =>
    have hb : b.id = row'.1 := by simpa using List.find?_some hfind
    rw [Option.map_some, Option.bind_some, Option.bind_some]
    split
    · rename_i hsame
      have hkey : row'.2 ≠ row.2 := fun hkey ↦ hne (Prod.ext (hb.symm.trans hsame) hkey)
      exact BatchRow.action?_updateAction hkey fun _ ↦ rfl
    · rfl

/-- Time does not go back. -/
theorem now_le_of_step {settings : Settings} {s s' : State} {e : Event}
    (hstep : step settings s e = some s') : s.now ≤ s'.now := by
  cases e with
  | tick elapsed =>
    obtain rfl := Option.some.inj hstep
    exact le_add_of_nonneg_right (Int.natCast_nonneg elapsed)
  | submit | claim =>
    simp only [step] at hstep
    split_ifs at hstep
    split at hstep
    all_goals cases hstep
    all_goals exact le_rfl
  | heartbeat | complete =>
    simp only [step] at hstep
    split at hstep
    all_goals try split at hstep
    all_goals cases hstep
    all_goals exact le_rfl
  | expireLease | makeReady | requeueEvicted | failOverdue | deleteExpired =>
    simp only [step] at hstep
    split_ifs at hstep
    cases hstep
    exact le_rfl
  | _ =>
    cases hstep
    exact le_rfl

namespace Replicas

/-! ### The transactions -/

/-- The next statement of a claim's transaction, or the one under way, with what those before it gave. -/
inductive Statement
  | claim (allowRun : Bool)
  | selecting (allowRun : Bool) (snapshot : Db)
  | readyRun
  | advisoryLock
  | update (row : Uuid × String)
  | insert (row : Uuid × String)
  | commit (row : Uuid × String) (token : Uuid)

/-- A transaction of `_claim`. Its `now()` is the time it started. -/
structure ClaimTx where
  id : ℕ
  tiers : List Tier
  worker : String
  started : Time
  next : Statement

/-- The row that a transaction holds the lock of. -/
def ClaimTx.row? (tx : ClaimTx) : Option (Uuid × String) :=
  match tx.next with
  | .update row | .insert row | .commit row _ => some row
  | _ => none

/-- What is committed, the claims in flight, and which of them holds the advisory lock. -/
structure Cluster where
  base : State
  claims : List ClaimTx
  advisory : Option ℕ

namespace Cluster

/-- The rows that claims in flight hold locks of. -/
def rowLocks (s : Cluster) : List (Uuid × String) := s.claims.filterMap (·.row?)

/-- A claim in flight. -/
def claim? (id : ℕ) (s : Cluster) : Option ClaimTx := s.claims.find? (·.id = id)

/-- A claim goes on to its next statement. -/
def proceed (id : ℕ) (next : Statement) (s : Cluster) : Cluster :=
  { s with claims := s.claims.map fun tx ↦ if tx.id = id then { tx with next } else tx }

/-- A claim's transaction ends, and its locks with it. -/
def finish (id : ℕ) (s : Cluster) : Cluster :=
  { s with
    claims := s.claims.filter (·.id ≠ id)
    advisory := if s.advisory = some id then none else s.advisory }

end Cluster

/-- What is committed once a claim has: the writes of `UPDATE` and `INSERT`. -/
def claimed (settings : Settings) (started : Time) (worker : String) (row : Uuid × String) (token : Uuid)
    (base : State) : State :=
  { base with
    db := base.db.modify row.1 fun b ↦ b.claimAction settings started token worker row.2
    issued := token :: base.issued }

/-- Another transaction, or a statement of a claim. -/
inductive Event
  | other (e : RemoteExec.Event)
  | begin (id : ℕ) (tiers : List Tier) (worker : String)
  | snapshot (id : ℕ)
  | select (id : ℕ) (skipped : List (Uuid × String))
  | readyRun (id : ℕ)
  | advisoryLock (id : ℕ)
  | update (id : ℕ)
  | insert (id : ℕ) (token : Uuid)
  | commit (id : ℕ)
  | abort (id : ℕ)

/-- Whether an event of the coordinator is a claim. -/
def isClaim : RemoteExec.Event → Bool
  | .claim .. => true
  | _ => false

/-- One event. Nobody is granted a lock that another holds, and a token that is in the table is refused. -/
def step (settings : Settings) (s : Cluster) : Event → Option Cluster
  | .other e =>
    if isClaim e then none
    else
      match RemoteExec.step settings s.base e with
      | none => none
      | some base =>
        if ∀ row ∈ s.rowLocks, base.db.row? row = s.base.db.row? row then some { s with base } else none
  | .begin id tiers worker =>
    if id ∈ s.claims.map (·.id) then none
    else some { s with claims := s.claims ++ [⟨id, tiers, worker, s.base.now, .claim false⟩] }
  | .snapshot id =>
    match s.claim? id with
    | some ⟨_, _, _, _, .claim allowRun⟩ => some (s.proceed id (.selecting allowRun s.base.db))
    | _ => none
  | .select id skipped =>
    match s.claim? id with
    | some ⟨_, tiers, _, _, .selecting allowRun snapshot⟩ =>
      match snapshot.claimQuery settings tiers allowRun skipped with
      | none =>
        some (if allowRun || settings.runSlots = 0 then s.finish id else s.proceed id .readyRun)
      | some (b, a) =>
        let available := allowRun && snapshot.runningRuns < settings.runSlots
        if (b.id, a.inputKey) ∉ s.rowLocks ∧
            (s.base.db.row? (b.id, a.inputKey)).any (Db.claimable tiers available) then
          some (s.proceed id (.update (b.id, a.inputKey)))
        else none
    | _ => none
  | .readyRun id =>
    match s.claim? id with
    | some ⟨_, tiers, _, _, .readyRun⟩ =>
      some (if s.base.db.readyRun tiers then s.proceed id .advisoryLock else s.finish id)
    | _ => none
  | .advisoryLock id =>
    match s.claim? id with
    | some ⟨_, _, _, _, .advisoryLock⟩ =>
      if s.advisory = none then some { s.proceed id (.claim true) with advisory := some id } else none
    | _ => none
  | .update id =>
    match s.claim? id with
    | some ⟨_, _, _, _, .update row⟩ => some (s.proceed id (.insert row))
    | _ => none
  | .insert id token =>
    match s.claim? id with
    | some ⟨_, _, _, _, .insert row⟩ => some (s.proceed id (.commit row token))
    | _ => none
  | .commit id =>
    match s.claim? id with
    | some ⟨_, _, worker, started, .commit row token⟩ =>
      if token ∈ s.base.issued then none
      else some { s.finish id with base := claimed settings started worker row token s.base }
    | _ => none
  | .abort id => if id ∈ s.claims.map (·.id) then some (s.finish id) else none

/-- The replicas, from an empty database and no claims. -/
def replicas (settings : Settings) : Machine Cluster Event where
  initial := ⟨(coordinator settings).initial, [], none⟩
  step := step settings

/-! ### The invariant -/

/-- What holds of a claim in flight. One that may admit runs holds the advisory lock, and no more runs are
running than it counted; a row that is locked is ready, and a run among them has a slot. -/
structure ClaimTx.Sound (settings : Settings) (s : Cluster) (tx : ClaimTx) : Prop where
  started_le : tx.started ≤ s.base.now
  holds : tx.next = .claim true → s.advisory = some tx.id
  counted : ∀ snapshot, tx.next = .selecting true snapshot →
    s.advisory = some tx.id ∧ s.base.db.runningRuns ≤ snapshot.runningRuns
  locked : ∀ row, tx.row? = some row → ∃ a, s.base.db.row? row = some a ∧ a.state = .ready ∧
    a.tier ∈ tx.tiers ∧ (a.actionClass = .run →
      s.advisory = some tx.id ∧ s.base.db.runningRuns < settings.runSlots)

/-- The invariant: the committed state is one of the coordinator, and the claims in flight are sound and hold
locks of distinct rows. -/
structure Cluster.Sound (settings : Settings) (s : Cluster) : Prop where
  reachable : (coordinator settings).Reachable s.base
  ids_nodup : (s.claims.map (·.id)).Nodup
  rows_distinct : ∀ tx ∈ s.claims, ∀ tx' ∈ s.claims, ∀ row, tx.row? = some row →
    tx'.row? = some row → tx.id = tx'.id
  claims : ∀ tx ∈ s.claims, tx.Sound settings s

section Steps

variable {settings : Settings} {s s' : Cluster} {tx : ClaimTx} {id : ℕ}

/-- Assumes: time that did not go back, the advisory lock where it was, no more running runs for its holder,
and the row that is locked as it was. -/
theorem ClaimTx.Sound.mono (htx : tx.Sound settings s) (hnow : s.base.now ≤ s'.base.now)
    (hadvisory : s.advisory = some tx.id → s'.advisory = some tx.id ∧
      s'.base.db.runningRuns ≤ s.base.db.runningRuns)
    (hrow : ∀ row, tx.row? = some row → s'.base.db.row? row = s.base.db.row? row) :
    tx.Sound settings s' := by
  refine ⟨htx.started_le.trans hnow, fun hnext ↦ (hadvisory (htx.holds hnext)).1,
    fun snapshot hnext ↦ ?_, fun row hlocked ↦ ?_⟩
  · obtain ⟨hholds, hcount⟩ := htx.counted snapshot hnext
    exact ⟨(hadvisory hholds).1, (hadvisory hholds).2.trans hcount⟩
  · obtain ⟨a, ha, hready, htier, hrun⟩ := htx.locked row hlocked
    refine ⟨a, (hrow row hlocked).trans ha, hready, htier, fun hclass ↦ ?_⟩
    obtain ⟨hholds, hslot⟩ := hrun hclass
    exact ⟨(hadvisory hholds).1, (hadvisory hholds).2.trans_lt hslot⟩

/-- A claim that is looked up is in flight. -/
theorem claim?_eq_some (htx : s.claim? id = some tx) : tx ∈ s.claims ∧ tx.id = id :=
  ⟨List.mem_of_find?_eq_some htx, by simpa using List.find?_some htx⟩

/-- A claim after another went on is that claim, gone on, or was there before. -/
theorem mem_proceed {next : Statement} {tx' : ClaimTx} (htx : tx' ∈ (s.proceed id next).claims) :
    ∃ tx ∈ s.claims, tx.id = tx'.id ∧
      (tx.id = id ∧ tx' = { tx with next } ∨ tx.id ≠ id ∧ tx' = tx) := by
  obtain ⟨tx, hmem, rfl⟩ := List.mem_map.mp htx
  refine ⟨tx, hmem, ?_⟩
  by_cases hid : tx.id = id
  · simp [hid]
  · simp [hid]

/-- Assumes: a next statement that holds no lock but one the claim held or nobody else holds, and that is
sound. The invariant is kept when a claim goes on. -/
theorem Cluster.Sound.proceed (hs : s.Sound settings) (htx : s.claim? id = some tx) {next : Statement}
    {advisory : Option ℕ} (hadvisory : ∀ id', s.advisory = some id' → advisory = some id')
    (hrow : ∀ row, { tx with next }.row? = some row → tx.row? = some row ∨ row ∉ s.rowLocks)
    (hsound : { tx with next }.Sound settings { s with advisory }) :
    Cluster.Sound settings { s.proceed id next with advisory } := by
  obtain ⟨hmem, hid⟩ := claim?_eq_some htx
  have hsame : ∀ tx' ∈ s.claims, tx'.id = id → tx' = tx := fun tx' htx' hid' ↦
    eq_of_key_eq hs.ids_nodup htx' hmem (hid'.trans hid.symm)
  have hids : (s.proceed id next).claims.map (·.id) = s.claims.map (·.id) := by
    rw [Cluster.proceed, List.map_map]
    refine List.map_congr_left fun tx _ ↦ ?_
    rw [Function.comp_apply]
    split <;> rfl
  have hother : ∀ tx' ∈ s.claims, tx'.id ≠ id → ∀ row, { tx with next }.row? = some row →
      tx'.row? ≠ some row := by
    intro tx' htx' hne row hlocked hlocked'
    rcases hrow row hlocked with hheld | hfree
    · exact hne ((hs.rows_distinct tx' htx' tx hmem row hlocked' hheld).trans hid)
    · exact hfree (List.mem_filterMap.mpr ⟨tx', htx', hlocked'⟩)
  refine ⟨hs.reachable, hids ▸ hs.ids_nodup, fun tx₁ htx₁ tx₂ htx₂ row hrow₁ hrow₂ ↦ ?_,
    fun tx' htx' ↦ ?_⟩
  · obtain ⟨old₁, hmem₁, hid₁, ⟨hid₁', rfl⟩ | ⟨hne₁, rfl⟩⟩ := mem_proceed htx₁ <;>
      obtain ⟨old₂, hmem₂, hid₂, ⟨hid₂', rfl⟩ | ⟨hne₂, rfl⟩⟩ := mem_proceed htx₂
    · exact hid₁'.trans hid₂'.symm
    · obtain rfl := hsame old₁ hmem₁ hid₁'
      exact absurd hrow₂ (hother _ hmem₂ hne₂ row hrow₁)
    · obtain rfl := hsame old₂ hmem₂ hid₂'
      exact absurd hrow₁ (hother _ hmem₁ hne₁ row hrow₂)
    · exact hs.rows_distinct _ hmem₁ _ hmem₂ row hrow₁ hrow₂
  · obtain ⟨old, hold, hid', ⟨hmine, rfl⟩ | ⟨hne, rfl⟩⟩ := mem_proceed htx'
    · obtain rfl := hsame old hold hmine
      exact hsound.mono le_rfl (fun h ↦ ⟨h, le_rfl⟩) fun _ _ ↦ rfl
    · exact (hs.claims _ hold).mono le_rfl (fun h ↦ ⟨hadvisory _ h, le_rfl⟩) fun _ _ ↦ rfl

/-- The end of a claim's transaction keeps the invariant, with what it commits: for the others, no more
running runs unless it held the advisory lock, and the rows that they locked. -/
theorem Cluster.Sound.finish (hs : s.Sound settings) {base : State}
    (hreachable : (coordinator settings).Reachable base) (hnow : s.base.now ≤ base.now)
    (hruns : s.advisory ≠ some id → base.db.runningRuns ≤ s.base.db.runningRuns)
    (hrows : ∀ tx ∈ s.claims, tx.id ≠ id → ∀ row, tx.row? = some row →
      base.db.row? row = s.base.db.row? row) :
    Cluster.Sound settings { s.finish id with base } := by
  have hmem : ∀ tx ∈ (s.finish id).claims, tx ∈ s.claims ∧ tx.id ≠ id := by
    intro tx htx
    simpa [Cluster.finish] using htx
  refine ⟨hreachable, (List.filter_sublist.map _).nodup hs.ids_nodup,
    fun tx htx tx' htx' ↦ hs.rows_distinct tx (hmem tx htx).1 tx' (hmem tx' htx').1, fun tx htx ↦ ?_⟩
  obtain ⟨htx, hne⟩ := hmem tx htx
  refine (hs.claims tx htx).mono hnow (fun hholds ↦ ?_) (hrows tx htx hne)
  have hother : s.advisory ≠ some id := fun h ↦ hne (Option.some.inj (hholds.symm.trans h))
  exact ⟨(if_neg hother).trans hholds, hruns hother⟩

/-- A transaction that is no claim keeps the invariant when it leaves the locked rows alone. -/
theorem Cluster.Sound.other (hs : s.Sound settings) {e : RemoteExec.Event} {base : State}
    (he : isClaim e = false) (hstep : RemoteExec.step settings s.base e = some base)
    (hrows : ∀ row ∈ s.rowLocks, base.db.row? row = s.base.db.row? row) :
    Cluster.Sound settings { s with base } := by
  obtain ⟨hsound, hleased⟩ := leased hs.reachable
  have hruns : base.db.runningRuns ≤ s.base.db.runningRuns := by
    refine runningRuns_step hsound hleased hstep (observe_of_ne_claim ?_)
    rintro started tiers worker token locked rfl
    cases he
  refine ⟨hs.reachable.step e hstep, hs.ids_nodup, hs.rows_distinct, fun tx htx ↦ ?_⟩
  refine (hs.claims tx htx).mono (now_le_of_step hstep) (fun h ↦ ⟨h, hruns⟩) fun row hlocked ↦ ?_
  exact hrows row (List.mem_filterMap.mpr ⟨tx, htx, hlocked⟩)

/-- A row that `CLAIM` locks is ready, and a run has a slot. -/
theorem locked_of_select (htx : tx.Sound settings s) {allowRun : Bool} {snapshot : Db}
    (hnext : tx.next = .selecting allowRun snapshot) {row : Uuid × String}
    (hrow : (s.base.db.row? row).any (Db.claimable tx.tiers
      (allowRun && snapshot.runningRuns < settings.runSlots))) :
    ∃ a, s.base.db.row? row = some a ∧ a.state = .ready ∧ a.tier ∈ tx.tiers ∧
      (a.actionClass = .run →
        s.advisory = some tx.id ∧ s.base.db.runningRuns < settings.runSlots) := by
  obtain ⟨a, ha, hclaimable⟩ := Option.any_eq_true _ _ |>.mp hrow
  simp only [Db.claimable, Bool.and_eq_true, Bool.or_eq_true, decide_eq_true_eq] at hclaimable
  obtain ⟨⟨hready, htier⟩, hclass⟩ := hclaimable
  refine ⟨a, ha, hready, htier, fun hrun ↦ ?_⟩
  obtain ⟨rfl, hslot⟩ := hclass.resolve_left fun hbuild ↦ by rw [hrun] at hbuild; cases hbuild
  obtain ⟨hholds, hcount⟩ := htx.counted snapshot hnext
  exact ⟨hholds, hcount.trans_lt hslot⟩

/-- The commit of a claim is a claim of the coordinator, under locks that leave it no other row. -/
theorem exists_claim_of_commit (hs : s.Sound settings) (htx : tx ∈ s.claims) {row : Uuid × String}
    {token : Uuid} (hnext : tx.next = .commit row token) (htoken : token ∉ s.base.issued) :
    ∃ locked, (coordinator settings).step s.base (.claim tx.started tx.tiers tx.worker token locked) =
      some (claimed settings tx.started tx.worker row token s.base) := by
  obtain ⟨hsound, hleased⟩ := leased hs.reachable
  obtain ⟨a, ha, hready, htier, hrun⟩ := (hs.claims tx htx).locked row (by simp [ClaimTx.row?, hnext])
  obtain ⟨b, hb, hid, hmem, hkey⟩ := Db.row?_eq_some ha
  have hrunning : b.state = .running := by
    by_contra hended
    have hfinished := (hleased b hb).ended hended a hmem
    rw [hready] at hfinished
    cases hfinished
  obtain ⟨locked, hrow⟩ := exists_claimRow hsound.ids_nodup hb (hleased b hb).keys_nodup hrunning hmem
    hready htier fun hclass ↦ (hrun hclass).2
  refine ⟨locked, ?_⟩
  have hfresh : ¬ (token ∈ s.base.issued ∨ s.base.now < tx.started) := fun h ↦
    h.elim htoken (not_lt.mpr (hs.claims tx htx).started_le)
  simp only [coordinator, RemoteExec.step, if_neg hfresh, hrow, hid, hkey, claimed]

/-- The commit of a claim keeps the invariant. -/
theorem Cluster.Sound.commit (hs : s.Sound settings) (htx : tx ∈ s.claims) {row : Uuid × String}
    {token : Uuid} (hnext : tx.next = .commit row token) (htoken : token ∉ s.base.issued) :
    Cluster.Sound settings
      { s.finish tx.id with base := claimed settings tx.started tx.worker row token s.base } := by
  obtain ⟨hsound, hleased⟩ := leased hs.reachable
  obtain ⟨locked, hclaim⟩ := exists_claim_of_commit hs htx hnext htoken
  have hheld : tx.row? = some row := by simp [ClaimTx.row?, hnext]
  refine hs.finish (hs.reachable.step _ hclaim) le_rfl (fun hother ↦ ?_) fun tx' htx' hne row' hrow' ↦ ?_
  · obtain ⟨a, ha, -, -, hrun⟩ := (hs.claims tx htx).locked row hheld
    obtain ⟨b, hb, hid, hmem, hkey⟩ := Db.row?_eq_some ha
    have hbuild : a.actionClass ≠ .run := fun hclass ↦ hother (hrun hclass).1
    have hle := runningRuns_claimAction settings (hleased b hb) hmem tx.started token tx.worker
    rw [if_neg hbuild] at hle
    have hmodified := runningRuns_modify hsound.ids_nodup hb hle
    rw [claimed, ← hid, ← hkey]
    exact hmodified
  · refine Db.row?_claimAction fun heq ↦ hne ?_
    exact hs.rows_distinct tx' htx' tx htx row (heq ▸ hrow') hheld

/-- Every event keeps the invariant. -/
theorem Cluster.Sound.step (hs : s.Sound settings) {e : Event} (hstep : step settings s e = some s') :
    s'.Sound settings := by
  cases e with
  | other e =>
    simp only [Replicas.step] at hstep
    split_ifs at hstep with hclaim
    split at hstep
    · cases hstep
    · rename_i base hbase
      split_ifs at hstep with hrows
      obtain rfl := Option.some.inj hstep
      exact hs.other (by simpa using hclaim) hbase hrows
  | begin id tiers worker =>
    simp only [Replicas.step] at hstep
    split_ifs at hstep with hid
    obtain rfl := Option.some.inj hstep
    have hfresh : (⟨id, tiers, worker, s.base.now, .claim false⟩ : ClaimTx).row? = none := rfl
    refine ⟨hs.reachable, ?_, fun tx htx tx' htx' row hrow hrow' ↦ ?_, fun tx htx ↦ ?_⟩
    · rw [List.map_append, List.map_singleton]
      exact List.Nodup.append hs.ids_nodup (List.nodup_singleton _) (List.disjoint_singleton.mpr hid)
    · rcases List.mem_append.mp htx with htx | htx
      · rcases List.mem_append.mp htx' with htx' | htx'
        · exact hs.rows_distinct tx htx tx' htx' row hrow hrow'
        · rw [List.mem_singleton.mp htx', hfresh] at hrow'
          cases hrow'
      · rw [List.mem_singleton.mp htx, hfresh] at hrow
        cases hrow
    · rcases List.mem_append.mp htx with htx | htx
      · exact (hs.claims tx htx).mono le_rfl (fun h ↦ ⟨h, le_rfl⟩) fun _ _ ↦ rfl
      · rw [List.mem_singleton.mp htx]
        exact ⟨le_rfl, nofun, nofun, nofun⟩
  | snapshot id =>
    simp only [Replicas.step] at hstep
    split at hstep
    · rename_i htx
      obtain rfl := Option.some.inj hstep
      obtain ⟨hmem, -⟩ := claim?_eq_some htx
      refine hs.proceed htx (fun _ h ↦ h) nofun ⟨(hs.claims _ hmem).started_le, nofun, ?_, nofun⟩
      rintro _ ⟨⟩
      exact ⟨(hs.claims _ hmem).holds rfl, le_rfl⟩
    · cases hstep
  | select id skipped =>
    simp only [Replicas.step] at hstep
    split at hstep
    · rename_i tiers _ _ allowRun snapshot htx
      obtain ⟨hmem, -⟩ := claim?_eq_some htx
      split at hstep
      · obtain rfl := Option.some.inj hstep
        split
        · exact hs.finish hs.reachable le_rfl (fun _ ↦ le_rfl) fun _ _ _ _ _ ↦ rfl
        · exact hs.proceed htx (fun _ h ↦ h) nofun ⟨(hs.claims _ hmem).started_le, nofun, nofun, nofun⟩
      · rename_i b a hquery
        split_ifs at hstep with hselected
        obtain rfl := Option.some.inj hstep
        refine hs.proceed htx (fun _ h ↦ h) ?_ ⟨(hs.claims _ hmem).started_le, nofun, nofun, ?_⟩
        · rintro _ ⟨⟩
          exact Or.inr hselected.1
        · rintro _ ⟨⟩
          exact locked_of_select (hs.claims _ hmem) rfl hselected.2
    · cases hstep
  | readyRun id =>
    simp only [Replicas.step] at hstep
    split at hstep
    · rename_i htx
      obtain ⟨hmem, -⟩ := claim?_eq_some htx
      obtain rfl := Option.some.inj hstep
      split
      · exact hs.proceed htx (fun _ h ↦ h) nofun ⟨(hs.claims _ hmem).started_le, nofun, nofun, nofun⟩
      · exact hs.finish hs.reachable le_rfl (fun _ ↦ le_rfl) fun _ _ _ _ _ ↦ rfl
    · cases hstep
  | advisoryLock id =>
    simp only [Replicas.step] at hstep
    split at hstep
    · rename_i htx
      obtain ⟨hmem, hid⟩ := claim?_eq_some htx
      split_ifs at hstep with hfree
      obtain rfl := Option.some.inj hstep
      refine hs.proceed htx (fun id' h ↦ ?_) nofun
        ⟨(hs.claims _ hmem).started_le, fun _ ↦ congrArg some hid.symm, nofun, nofun⟩
      rw [hfree] at h
      cases h
    · cases hstep
  | update id =>
    simp only [Replicas.step] at hstep
    split at hstep
    · rename_i htx
      obtain ⟨hmem, -⟩ := claim?_eq_some htx
      obtain rfl := Option.some.inj hstep
      exact hs.proceed htx (fun _ h ↦ h) (fun _ h ↦ Or.inl h)
        ⟨(hs.claims _ hmem).started_le, nofun, nofun, (hs.claims _ hmem).locked⟩
    · cases hstep
  | insert id token =>
    simp only [Replicas.step] at hstep
    split at hstep
    · rename_i htx
      obtain ⟨hmem, -⟩ := claim?_eq_some htx
      obtain rfl := Option.some.inj hstep
      exact hs.proceed htx (fun _ h ↦ h) (fun _ h ↦ Or.inl h)
        ⟨(hs.claims _ hmem).started_le, nofun, nofun, (hs.claims _ hmem).locked⟩
    · cases hstep
  | commit id =>
    simp only [Replicas.step] at hstep
    split at hstep
    · rename_i htx
      obtain ⟨hmem, rfl⟩ := claim?_eq_some htx
      split_ifs at hstep with htoken
      obtain rfl := Option.some.inj hstep
      exact hs.commit hmem rfl htoken
    · cases hstep
  | abort id =>
    simp only [Replicas.step] at hstep
    split_ifs at hstep
    obtain rfl := Option.some.inj hstep
    exact hs.finish hs.reachable le_rfl (fun _ ↦ le_rfl) fun _ _ _ _ _ ↦ rfl

end Steps

/-! ### Every reachable state -/

section Reachable

variable {settings : Settings} {s : Cluster}

/-- In every reachable state the invariant holds. -/
theorem sound (hs : (replicas settings).Reachable s) : s.Sound settings := by
  refine hs.invariant (P := fun s ↦ s.Sound settings) ⟨.initial, List.nodup_nil, nofun, nofun⟩ ?_
  exact fun s e s' _ hsound hstep ↦ hsound.step hstep

/-- What the replicas commit is a state of the coordinator, whose claims are atomic. -/
theorem refines (hs : (replicas settings).Reachable s) : (coordinator settings).Reachable s.base :=
  (sound hs).reachable

/-- Over all replicas, in every reachable state, at most `run_slots` runs are running; an action has at most
one lease; two claims in flight never hold the same row; and the committed state is one that the
coordinator reaches with claims that are atomic. -/
theorem run_slots_respected (hs : (replicas settings).Reachable s) :
    s.base.db.runningRuns ≤ settings.runSlots ∧
    (∀ b ∈ s.base.db.batches, ∀ a ∈ b.actions,
      s.base.db.leases.countP (fun r ↦ r.1 = b.id ∧ r.2.inputKey = a.inputKey) ≤ 1) ∧
    (∀ tx ∈ s.claims, ∀ tx' ∈ s.claims, ∀ row, tx.row? = some row → tx'.row? = some row →
      tx.id = tx'.id) ∧
    (coordinator settings).Reachable s.base := by
  obtain ⟨hstate, hleased⟩ := leased (refines hs)
  refine ⟨runningRuns_le_runSlots (refines hs), fun b hb a _ ↦ ?_, (sound hs).rows_distinct, refines hs⟩
  rw [Db.leases, countP_leases hstate.ids_nodup hb]
  have hone := List.nodup_iff_count_le_one.mp (hleased b hb).lease_keys_nodup a.inputKey
  rw [List.count, List.countP_map] at hone
  refine le_trans (List.countP_mono_left fun l _ hl ↦ ?_) hone
  simpa using hl

end Reachable

/-- Two runs are ready and there is one slot. Two claims find no build; the first takes the advisory lock
and commits a run, and the second then counts it and selects none. -/
def sampleClaims : List Event :=
  [.other (.submit 0 sampleRuns "default" .run), .other (.readReleasable none),
    .other (.makeReady 0 [⟨0, "a", []⟩, ⟨0, "b", []⟩] fun _ ↦ none),
    .begin 1 [.standard] "worker", .begin 2 [.standard] "worker", .snapshot 1, .snapshot 2,
    .select 1 [], .select 2 [], .readyRun 1, .readyRun 2, .advisoryLock 1, .snapshot 1, .select 1 [],
    .update 1, .insert 1 1, .commit 1, .advisoryLock 2, .snapshot 2, .select 2 []]

theorem sampleClaims_isSome :
    ((replicas { runSlots := 1 }).run (replicas { runSlots := 1 }).initial sampleClaims).isSome := by
  decide +kernel

theorem run_slots_respected_sampleClaims :
    (((replicas { runSlots := 1 }).run (replicas { runSlots := 1 }).initial sampleClaims).get
      sampleClaims_isSome).base.db.runningRuns ≤ 1 :=
  (run_slots_respected (Machine.reachable_of_run sampleClaims_isSome)).1

end Replicas

end Holbuild.RemoteExec
