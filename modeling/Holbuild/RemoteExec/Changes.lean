import Holbuild.RemoteExec.Transactions

/-!
# What a transaction can make of a batch

`Change settings b marks b'` lists, once, what a transaction of the coordinator can make of the row of
a batch, with the conditions under which it does, so that an invariant of batches is one case for each
way, and `Ending` the ways of an attempt that ends, by a result or by the expiry of its lease.
`ending_complete`, `ending_expireLease` and `changed_requeueEvicted` read this off the branches of the
transactions.

The marks say what the change counts for: an action claimed, or an attempt given back because its
worker was unavailable.

The second half says what the changes do to the rows of the actions, as evolutions: the row of the
action the change is about, and what becomes of the others.
-/

set_option autoImplicit false
set_option relaxedAutoImplicit false

namespace Holbuild.RemoteExec

open Library

/-- A mapped computation that succeeds comes from one that succeeds. -/
theorem exists_of_map_eq_ok {ε α β : Type} {x : Except ε α} {f : α → β} {y : β}
    (hmap : x.map f = .ok y) : ∃ z, x = .ok z ∧ f z = y := by
  cases x with
  | error e => cases hmap
  | ok z => exact ⟨z, rfl, Except.ok.inj hmap⟩

/-! ### Changes -/

/-- What a change counts for. -/
inductive Mark
  | claimed (key : String) (token : Uuid)
  | unavailable (key : String)
deriving DecidableEq

/-- The attempt that a lease of a batch is for. -/
structure Attempt (b : BatchRow) (lease : LeaseRow) (a : ActionRow) : Prop where
  lease_mem : lease ∈ b.leases
  action_mem : a ∈ b.actions
  inputKey_eq : a.inputKey = lease.inputKey

/-- An update that writes a report and possibly a tier, and takes attempts off the count. -/
def Records (f : ActionRow → ActionRow) (tier : Option Tier) (back : ℤ) : Prop :=
  ∀ a, ∃ log failure, f a = { a with
    logSha256 := log, lastFailure := failure, tier := tier.getD a.tier, attempts := a.attempts - back }

theorem Records.inputKey {f : ActionRow → ActionRow} {tier : Option Tier} {back : ℤ}
    (hf : Records f tier back) (a : ActionRow) : (f a).inputKey = a.inputKey := by
  obtain ⟨log, failure, heq⟩ := hf a
  rw [heq]

/-- A report followed by a change of tier or attempts is one update. -/
theorem Records.comp {f g : ActionRow → ActionRow} {tier : Option Tier} {back : ℤ}
    (hf : Records f none 0)
    (hg : ∀ a, g a = { a with tier := tier.getD a.tier, attempts := a.attempts - back }) :
    Records (g ∘ f) tier back := by
  intro a
  obtain ⟨log, failure, heq⟩ := hf a
  refine ⟨log, failure, ?_⟩
  rw [Function.comp_apply, hg, heq]
  simp

/-- The batch once the lease of an attempt was deleted and its action updated. -/
def BatchRow.reported (lease : LeaseRow) (f : ActionRow → ActionRow) (b : BatchRow) : BatchRow :=
  (b.deleteLease lease.attemptToken).updateAction lease.inputKey f

/-- What the end of an attempt can make of a batch: a result that its worker reported, or the expiry of
its lease. -/
inductive Ending (settings : Settings) (b : BatchRow) (lease : LeaseRow) (reported : Option Result) :
    List Mark → BatchRow → Prop
  | finish {a : ActionRow} {f : ActionRow → ActionRow} : Attempt b lease a → Records f none 0 →
      Ending settings b lease reported [] ((b.reported lease f).finish lease.inputKey)
  | retry {a : ActionRow} {f : ActionRow → ActionRow} : Attempt b lease a → Records f none 0 →
      a.attempts < settings.maxAttempts →
      Ending settings b lease reported [] ((b.reported lease f).retry lease.inputKey)
  | raise {a : ActionRow} {f : ActionRow → ActionRow} : Attempt b lease a →
      Records f (some .high) 0 → a.tier = .standard →
      Ending settings b lease reported [] ((b.reported lease f).retry lease.inputKey)
  | unavailable {a : ActionRow} {f : ActionRow → ActionRow} : Attempt b lease a → Records f none 1 →
      Ending settings b lease reported [.unavailable lease.inputKey]
        ((b.reported lease f).retry lease.inputKey)
  | block {a : ActionRow} {f : ActionRow → ActionRow} {parent : String} {added : BatchRow} :
      Attempt b lease a → Records f none 0 → a.attempts < settings.maxAttempts → parent ∈ b.keys →
      (b.reported lease f).addEdge lease.inputKey parent = .ok (some added) →
      (∃ result, reported = some result ∧ result.missing = some ⟨.theory, parent⟩) →
      Ending settings b lease reported [] (added.block lease.inputKey parent)
  | failRun {a : ActionRow} {f : ActionRow → ActionRow} : Attempt b lease a → Records f none 0 →
      a.actionClass = .run →
      Ending settings b lease reported []
        (((b.reported lease f).setState lease.inputKey .failed).finishIfDone)
  | failBuild {a : ActionRow} {f : ActionRow → ActionRow} (failure : String) : Attempt b lease a →
      Records f none 0 → a.actionClass = .build →
      Ending settings b lease reported [] ((b.reported lease f).failBatch lease.inputKey failure)
  | resubmit {a : ActionRow} {f : ActionRow → ActionRow} (text : String) : Attempt b lease a →
      Records f none 0 → settings.maxAttempts ≤ a.attempts →
      (∃ result, reported = some result ∧ result.failure = some .inputMissing) →
      Ending settings b lease reported []
        ((b.reported lease f).failBatch lease.inputKey ("resubmit: " ++ text))

/-- What a transaction can make of a batch. -/
inductive Change (settings : Settings) (b : BatchRow) : List Mark → BatchRow → Prop
  | claim {a : ActionRow} (now : Time) (token : Uuid) (worker : String) :
    b.state = .running → a ∈ b.actions → a.state = .ready → token ∉ b.leases.map (·.attemptToken) →
      Change settings b [.claimed a.inputKey token]
        (b.claimAction settings now token worker a.inputKey)
  | heartbeat (now : Time) (token : Uuid) : Change settings b [] (b.heartbeat settings now token)
  | makeReady (keys : List String) : b.state = .running → Change settings b [] (b.makeReady keys)
  | requeue {a : ActionRow} : b.state = .running → a ∈ b.actions → a.state = .done →
      a.attempts < settings.maxAttempts → Change settings b [] (b.requeue a.inputKey)
  | evict {a : ActionRow} (text : String) : b.state = .running → a ∈ b.actions →
      a.state = .done → Change settings b [] (b.failBatch a.inputKey ("resubmit: " ++ text))
  | stop {state : BatchState} (failure : Option String) : b.state = .running → state ≠ .running →
      Change settings b [] (b.endBatch state failure)
  | ends {lease : LeaseRow} {reported : Option Result} {marks : List Mark} {b' : BatchRow} :
      Ending settings b lease reported marks b' → Change settings b marks b'

namespace BatchRow

variable {settings : Settings} {b : BatchRow}

/-- An action that is looked up has its key and is one of the batch. -/
theorem action?_eq_some {key : String} {a : ActionRow} (ha : b.action? key = some a) :
    a ∈ b.actions ∧ a.inputKey = key :=
  ⟨List.mem_of_find?_eq_some ha, by simpa using List.find?_some ha⟩

/-- An update of rows that leaves the keys alone. -/
theorem keys_mapActions {f : ActionRow → ActionRow} (hf : ∀ a, (f a).inputKey = a.inputKey) :
    (b.mapActions f).keys = b.keys := by
  simp [keys, mapActions, Function.comp_def, hf]

/-- An update of a row that leaves its key alone. -/
theorem keys_updateAction {key : String} {f : ActionRow → ActionRow}
    (hf : ∀ a, (f a).inputKey = a.inputKey) : (b.updateAction key f).keys = b.keys := by
  refine keys_mapActions fun a ↦ ?_
  split
  · exact hf a
  · rfl

/-- A theory that is built again is an action of the batch. -/
theorem mem_keys_of_rebuilt {missing : Missing} {theory : String}
    (hrebuilt : b.rebuilt (some missing) = some theory) :
    missing = ⟨.theory, missing.key⟩ ∧ missing.key ∈ b.keys := by
  obtain ⟨kind, key⟩ := missing
  cases kind with
  | blob => simp [rebuilt] at hrebuilt
  | theory =>
    simp only [rebuilt, Option.map_eq_some_iff] at hrebuilt
    obtain ⟨a, ha, -⟩ := hrebuilt
    obtain ⟨hmem, rfl⟩ := action?_eq_some ha
    exact ⟨rfl, List.mem_map_of_mem hmem⟩

/-- An update that changes nothing. -/
theorem updateAction_self (b : BatchRow) (key : String) : b.updateAction key (fun a ↦ a) = b := by
  simp [updateAction, mapActions]

/-- Two updates of one row are one update. -/
theorem updateAction_updateAction {key : String} {f g : ActionRow → ActionRow}
    (hf : ∀ a, (f a).inputKey = a.inputKey) :
    (b.updateAction key f).updateAction key g = b.updateAction key (g ∘ f) := by
  simp only [updateAction, mapActions, List.map_map]
  congr 1
  refine List.map_congr_left fun a _ ↦ ?_
  by_cases hkey : a.inputKey = key <;> simp [hkey, hf]

theorem keys_reported {lease : LeaseRow} {f : ActionRow → ActionRow} {tier : Option Tier} {back : ℤ}
    (hf : Records f tier back) : (b.reported lease f).keys = b.keys :=
  keys_updateAction hf.inputKey

/-- What `_fail` does of an attempt. -/
theorem ending_fail {lease : LeaseRow} {a : ActionRow} {f : ActionRow → ActionRow}
    (hattempt : Attempt b lease a) (hf : Records f none 0) (reported : Option Result)
    (failure : String) :
    Ending settings b lease reported []
      ((b.reported lease f).fail lease.inputKey a.actionClass failure) := by
  cases hclass : a.actionClass with
  | build => exact .failBuild failure hattempt hf hclass
  | run => exact .failRun hattempt hf hclass

/-- A completion's report as an update. -/
theorem records_report (result : Result) :
    Records (fun a ↦ { a with logSha256 := result.logSha256, lastFailure := result.failure })
      none 0 :=
  fun _ ↦ ⟨result.logSha256, result.failure, by simp⟩

/-- What `_input_missing` does of an attempt. -/
theorem ending_inputMissing {lease : LeaseRow} {a : ActionRow} {f : ActionRow → ActionRow}
    {result : Result} {b' : BatchRow} (hattempt : Attempt b lease a) (hf : Records f none 0)
    (hfailure : result.failure = some .inputMissing)
    (hmissing : (b.reported lease f).inputMissing settings lease.inputKey a.theory a.attempts
      result.missing = .ok b') :
    Ending settings b lease (some result) [] b' := by
  unfold inputMissing at hmissing
  split_ifs at hmissing with hlimit
  · obtain rfl := Except.ok.inj hmissing
    simp only [String.append_assoc]
    exact .resubmit _ hattempt hf hlimit ⟨result, rfl, hfailure⟩
  · rw [not_le] at hlimit
    split at hmissing
    · rename_i theory missing hrebuilt hreported
      split at hmissing
      · cases hmissing
      · obtain rfl := Except.ok.inj hmissing
        exact .retry hattempt hf hlimit
      · rename_i added hadded
        obtain rfl := Except.ok.inj hmissing
        rw [hreported] at hrebuilt
        obtain ⟨hkind, hkeys⟩ := mem_keys_of_rebuilt hrebuilt
        rw [keys_reported hf] at hkeys
        exact .block hattempt hf hlimit hkeys hadded ⟨result, rfl, hkind ▸ hreported⟩
    · obtain rfl := Except.ok.inj hmissing
      exact .retry hattempt hf hlimit

/-- What a completion's record makes of an attempt. -/
theorem ending_settle {lease : LeaseRow} {a : ActionRow} {f : ActionRow → ActionRow}
    {result : Result} {b' : BatchRow} {peak : Option Peak} (hattempt : Attempt b lease a)
    (hf : Records f none 0)
    (hsettle : (b.reported lease f).settle settings a result = .ok (b', peak)) :
    Ending settings b lease (some result)
      (if result.failure = some .unavailable then [.unavailable lease.inputKey] else []) b' := by
  unfold settle at hsettle
  simp only [hattempt.inputKey_eq] at hsettle
  split_ifs at hsettle with hbuilt hmemory hunavailable hretry hmissing
  · have hnone : result.failure ≠ some .unavailable := by
      intro hfailure
      exact hbuilt (result.failure_isSome_iff.mp (by rw [hfailure]; rfl))
    have hfinish : b' = (b.reported lease f).finish lease.inputKey := by
      split at hsettle
      · obtain ⟨recorded, -, heq⟩ := exists_of_map_eq_ok hsettle
        exact (Prod.mk.inj heq).1.symm
      · exact (Prod.mk.inj (Except.ok.inj hsettle)).1.symm
    rw [if_neg hnone, hfinish]
    exact .finish hattempt hf
  · obtain ⟨recorded, -, heq⟩ := exists_of_map_eq_ok hsettle
    obtain rfl := (Prod.mk.inj heq).1
    rw [if_neg (by simp [hmemory.1]), reported, updateAction_updateAction hf.inputKey]
    exact .raise hattempt (hf.comp fun a ↦ by simp) hmemory.2
  · obtain rfl := (Prod.mk.inj (Except.ok.inj hsettle)).1
    rw [if_pos hunavailable, reported, updateAction_updateAction hf.inputKey]
    exact .unavailable hattempt (hf.comp fun a ↦ by simp)
  · obtain rfl := (Prod.mk.inj (Except.ok.inj hsettle)).1
    rw [if_neg hunavailable]
    exact .retry hattempt hf hretry.1
  · obtain ⟨blocked, hblocked, heq⟩ := exists_of_map_eq_ok hsettle
    obtain rfl := (Prod.mk.inj heq).1
    rw [if_neg hunavailable]
    exact ending_inputMissing hattempt hf hmissing hblocked
  · obtain rfl := (Prod.mk.inj (Except.ok.inj hsettle)).1
    rw [if_neg hunavailable]
    exact ending_fail hattempt hf _ _

/-- A lease found in a batch and the action it names are an attempt. -/
theorem attempt_of_find? {p : LeaseRow → Bool} {lease : LeaseRow} {a : ActionRow}
    (hlease : b.leases.find? p = some lease) (ha : b.action? lease.inputKey = some a) :
    Attempt b lease a := by
  obtain ⟨hmem, hkey⟩ := action?_eq_some ha
  exact ⟨List.mem_of_find?_eq_some hlease, hmem, hkey⟩

/-- What a completion that is applied makes of its batch. -/
theorem ending_complete {now : Time} {token : Uuid} {result : Result} {b' : BatchRow}
    {peak : Option Peak} (hcomplete : b.complete settings now token result = .ok (some (b', peak))) :
    ∃ lease, b.liveLease? now token = some lease ∧
      Ending settings b lease (some result)
        (if result.failure = some .unavailable then [.unavailable lease.inputKey] else []) b' := by
  unfold complete at hcomplete
  split at hcomplete
  · cases hcomplete
  · rename_i lease hlease
    have hlive := List.find?_some hlease
    rw [decide_eq_true_eq] at hlive
    split at hcomplete
    · cases hcomplete
    · rename_i a ha
      have hattempt := attempt_of_find? hlease ha
      split_ifs at hcomplete with hmismatch
      obtain ⟨settled, hsettled, heq⟩ := exists_of_map_eq_ok hcomplete
      obtain rfl := Option.some.inj heq
      refine ⟨lease, hlease, ?_⟩
      rw [report, hattempt.inputKey_eq, ← hlive.1] at hsettled
      exact ending_settle hattempt (records_report result) hsettled

/-- Assumes: actions that leases name are running. What an expiry makes of a batch. -/
theorem ending_expireLease
    (hrunning : ∀ lease ∈ b.leases, ∀ a ∈ b.actions, a.inputKey = lease.inputKey →
      a.state = .running) (now : Time) (token : Uuid) :
    b.expireLease settings now token = b ∨ ∃ lease ∈ b.leases, lease.attemptToken = token ∧
      Ending settings b lease none [] (b.expireLease settings now token) := by
  unfold expireLease
  split
  · exact Or.inl rfl
  · rename_i lease hlease
    have hexpired := List.find?_some hlease
    rw [decide_eq_true_eq] at hexpired
    split
    · exact Or.inl rfl
    · rename_i a ha
      have hattempt := attempt_of_find? hlease ha
      have hstate := hrunning lease hattempt.lease_mem a hattempt.action_mem hattempt.inputKey_eq
      rw [if_neg (not_not.mpr hstate), hattempt.inputKey_eq, ← hexpired.1]
      refine Or.inr ⟨lease, hattempt.lease_mem, rfl, ?_⟩
      split_ifs with hlimit
      · refine ending_fail hattempt (fun a ↦ ?_) _ _
        by_cases hclass : a.actionClass = .run
        · exact ⟨a.logSha256, some .internal, by simp [hclass]⟩
        · exact ⟨a.logSha256, a.lastFailure, by simp [hclass]⟩
      · rw [← updateAction_self (b.deleteLease lease.attemptToken) lease.inputKey]
        exact .retry hattempt (fun a ↦ ⟨a.logSha256, a.lastFailure, by simp⟩) (not_le.mp hlimit)

/-- What an eviction makes of a batch. -/
theorem changed_requeueEvicted (parent : String) :
    (b.requeueEvicted settings parent).1 = b ∨
      Change settings b [] (b.requeueEvicted settings parent).1 := by
  unfold requeueEvicted
  split
  · exact Or.inl rfl
  · rename_i hrunning
    rw [not_not] at hrunning
    split
    · exact Or.inl rfl
    · rename_i a ha
      obtain ⟨hmem, rfl⟩ := action?_eq_some ha
      split
      · exact Or.inl rfl
      · rename_i hdone
        rw [not_not] at hdone
        split
        · simp only [String.append_assoc]
          exact Or.inr (.evict _ hrunning hmem hdone)
        · rename_i hlimit
          exact Or.inr (.requeue hrunning hmem hdone (not_le.mp hlimit))

@[simp] theorem insertEdge_actions (child parent : String) :
    (b.insertEdge child parent).actions = b.actions := by
  unfold insertEdge
  split <;> rfl

/-- Adding an edge leaves the id, the state and the leases of the batch alone. -/
theorem addEdge_frame {child parent : String} {added : BatchRow}
    (hadded : b.addEdge child parent = .ok (some added)) :
    added.id = b.id ∧ added.state = b.state ∧ added.leases = b.leases ∧
      added.edges = (b.insertEdge child parent).edges := by
  unfold addEdge at hadded
  split at hadded
  · cases hadded
  · cases hadded
  · obtain rfl := Option.some.inj (Except.ok.inj hadded)
    unfold insertEdge reprioritise
    split <;> exact ⟨rfl, rfl, rfl, rfl⟩

end BatchRow

/-- A change leaves the id of the batch alone. -/
theorem Change.id {settings : Settings} {b b' : BatchRow} {marks : List Mark}
    (hchange : Change settings b marks b') : b'.id = b.id := by
  cases hchange with
  | ends hends =>
    cases hends with
    | block _ _ _ _ hadded => exact (BatchRow.addEdge_frame hadded).1
    | finish | failRun => exact BatchRow.finishIfDone_id _
    | _ => rfl
  | _ => rfl

/-- A lease after a change has the token and the action of one before, or of the claim that the change
counts for. -/
theorem Change.tokens {settings : Settings} {b b' : BatchRow} {marks : List Mark}
    (hchange : Change settings b marks b') {l : LeaseRow} (hl : l ∈ b'.leases) :
    (∃ l' ∈ b.leases, l'.attemptToken = l.attemptToken ∧ l'.inputKey = l.inputKey) ∨
      Mark.claimed l.inputKey l.attemptToken ∈ marks := by
  have hsame : l ∈ b.leases →
      (∃ l' ∈ b.leases, l'.attemptToken = l.attemptToken ∧ l'.inputKey = l.inputKey) ∨
        Mark.claimed l.inputKey l.attemptToken ∈ marks := fun hmem ↦ Or.inl ⟨l, hmem, rfl, rfl⟩
  have hfilter : ∀ token, l ∈ b.leases.filter (·.attemptToken ≠ token) → l ∈ b.leases :=
    fun _ hmem ↦ (List.mem_filter.mp hmem).1
  cases hchange with
  | claim now token worker =>
    rcases List.mem_append.mp hl with hl | hl
    · exact hsame hl
    · rw [List.mem_singleton.mp hl]
      exact Or.inr (List.mem_singleton_self _)
  | heartbeat now token =>
    obtain ⟨l', hl', rfl⟩ := List.mem_map.mp hl
    refine Or.inl ⟨l', hl', ?_⟩
    split <;> exact ⟨rfl, rfl⟩
  | makeReady | requeue => exact hsame hl
  | evict | stop => cases hl
  | ends hends =>
    cases hends with
    | failBuild | resubmit => cases hl
    | finish | failRun => exact hsame (hfilter _ (BatchRow.finishIfDone_leases _ ▸ hl))
    | retry | raise | unavailable => exact hsame (hfilter _ hl)
    | @block _ _ _ added _ _ _ _ hadded =>
      have hl : l ∈ added.leases := hl
      rw [(BatchRow.addEdge_frame hadded).2.2.1] at hl
      exact hsame (hfilter _ hl)

/-! ### What no change writes -/

namespace BatchRow

variable {b : BatchRow}

/-- What the submission of the batch wrote of its actions. -/
def submitted (b : BatchRow) : List (BatchAction × ActionClass) := b.actions.map (·.submitted)

/-- Assumes: an update that leaves what the submission wrote alone. -/
theorem submitted_mapActions {f : ActionRow → ActionRow}
    (hf : ∀ a, (f a).submitted = a.submitted) : (b.mapActions f).submitted = b.submitted := by
  rw [submitted, mapActions_actions, List.map_map]
  exact List.map_congr_left fun a _ ↦ hf a

/-- Assumes: an update of a row that leaves what the submission wrote alone. -/
theorem submitted_updateAction (key : String) {f : ActionRow → ActionRow}
    (hf : ∀ a, (f a).submitted = a.submitted) : (b.updateAction key f).submitted = b.submitted := by
  refine submitted_mapActions fun a ↦ ?_
  split
  · exact hf a
  · rfl

theorem submitted_setState (key : String) (state : ActionState) :
    (b.setState key state).submitted = b.submitted :=
  submitted_updateAction key fun _ ↦ rfl

theorem submitted_refresh (selected : String → Bool) :
    (b.refresh selected).submitted = b.submitted :=
  submitted_mapActions fun a ↦ by split <;> rfl

theorem submitted_requeue (key : String) : (b.requeue key).submitted = b.submitted := by
  rw [requeue, refreshChildren, submitted_refresh, refreshKeys, submitted_refresh]
  exact submitted_updateAction key fun a ↦ by split <;> rfl

theorem submitted_endBatch (state : BatchState) (failure : Option String) :
    (b.endBatch state failure).submitted = b.submitted := by
  rw [submitted, endBatch, List.map_map]
  refine List.map_congr_left fun a _ ↦ ?_
  rw [Function.comp_apply]
  split <;> rfl

theorem submitted_failBatch (key failure : String) :
    (b.failBatch key failure).submitted = b.submitted := by
  rw [failBatch, submitted_endBatch, submitted_setState]

theorem submitted_finishIfDone : b.finishIfDone.submitted = b.submitted := by
  rw [submitted, finishIfDone_actions, submitted]

theorem submitted_addEdge {child parent : String} {added : BatchRow}
    (hadded : b.addEdge child parent = .ok (some added)) : added.submitted = b.submitted := by
  unfold addEdge at hadded
  split at hadded
  · cases hadded
  · cases hadded
  · obtain rfl := Option.some.inj (Except.ok.inj hadded)
    rw [reprioritise, submitted_mapActions, submitted, insertEdge_actions, submitted]
    intro a
    split
    · split <;> rfl
    · rfl

theorem submitted_reported {lease : LeaseRow} {f : ActionRow → ActionRow} {tier : Option Tier}
    {back : ℤ} (hf : Records f tier back) : (b.reported lease f).submitted = b.submitted := by
  refine submitted_updateAction lease.inputKey fun a ↦ ?_
  obtain ⟨log, failure, heq⟩ := hf a
  rw [heq]
  rfl

end BatchRow

open BatchRow in
/-- The end of an attempt leaves what the submission wrote alone. -/
theorem Ending.submitted {settings : Settings} {b b' : BatchRow} {lease : LeaseRow}
    {reported : Option Result} {marks : List Mark}
    (hends : Ending settings b lease reported marks b') : b'.submitted = b.submitted := by
  cases hends with
  | finish hattempt hf =>
    rw [BatchRow.finish, submitted_finishIfDone, refreshChildren, submitted_refresh, submitted_setState,
      submitted_reported hf]
  | retry hattempt hf | raise hattempt hf | unavailable hattempt hf =>
    rw [BatchRow.retry, refreshKeys, submitted_refresh, submitted_setState, submitted_reported hf]
  | block hattempt hf hattempts hparent hadded =>
    rw [BatchRow.block, submitted_requeue, submitted_setState, submitted_addEdge hadded, submitted_reported hf]
  | failRun hattempt hf => rw [submitted_finishIfDone, submitted_setState, submitted_reported hf]
  | failBuild failure hattempt hf | resubmit failure hattempt hf =>
    rw [submitted_failBatch, submitted_reported hf]

open BatchRow in
/-- A change leaves what the submission wrote alone. -/
theorem Change.submitted {settings : Settings} {b b' : BatchRow} {marks : List Mark}
    (hchange : Change settings b marks b') : b'.submitted = b.submitted := by
  cases hchange with
  | @claim a => exact submitted_updateAction a.inputKey fun _ ↦ rfl
  | heartbeat => rfl
  | makeReady => exact submitted_mapActions fun a ↦ by split <;> rfl
  | requeue => exact submitted_requeue _
  | evict => exact submitted_failBatch _ _
  | stop => exact submitted_endBatch _ _
  | ends hends => exact hends.submitted

namespace BatchRow

variable {b : BatchRow}

/-! ### The rows after a change -/

/-- Assumes: an update that leaves the key alone, of the row whose state is then set. The row of the
action is updated and in its new state, and the others are as they were. -/
theorem evolve_setState (key : String) {f : ActionRow → ActionRow}
    (hf : ∀ a, (f a).inputKey = a.inputKey) (state : ActionState) :
    Evolve (Touched key (fun a a' ↦ a' = { f a with state }) fun a a' ↦ a' = a) b.actions
      ((b.updateAction key f).setState key state).actions := by
  rw [setState, updateAction_updateAction hf]
  exact evolve_updateAction b key _

/-- Assumes: an update that leaves the key alone, of the row whose state is then set, before a
refresh. The row of the action is updated and in its new state before it is refreshed, and the others
are refreshed. -/
theorem evolve_setState_refresh (key : String) {f : ActionRow → ActionRow}
    (hf : ∀ a, (f a).inputKey = a.inputKey) (state : ActionState) (selected : String → Bool) :
    Evolve (Touched key (fun a a' ↦ Refreshed { f a with state } a')
        fun a a' ↦ Refreshed a a' ∧ (selected a.inputKey = false → a' = a)) b.actions
      (((b.updateAction key f).setState key state).refresh selected).actions := by
  refine (evolve_setState key hf state).trans (evolve_refresh _ selected) fun a a₁ a' hset hrefresh ↦ ?_
  rw [touched_iff] at hset ⊢
  refine ⟨fun hkey ↦ ?_, fun hkey ↦ ?_⟩
  · exact hset.1 hkey ▸ hrefresh.1
  · obtain rfl := hset.2 hkey
    exact hrefresh

/-- What re-queueing an action does to its row: it waits if it was done, and it is refreshed. -/
def Requeued (a a' : ActionRow) : Prop :=
  Refreshed (if a.state = .done then { a with state := .waiting } else a) a'

/-- Re-queueing an action touches its row and refreshes others. -/
theorem evolve_requeue (b : BatchRow) (key : String) :
    Evolve (Touched key Requeued Refreshed) b.actions (b.requeue key).actions := by
  have hrefreshed : Evolve Refreshed
      (b.updateAction key fun a ↦
        if a.state = .done then { a with state := .waiting } else a).actions
      (b.requeue key).actions :=
    ((evolve_refresh _ fun k ↦ k ∈ [key]).imp fun _ _ h ↦ h.1).trans
      ((evolve_refresh _ _).imp fun _ _ h ↦ h.1) fun _ _ _ ↦ Refreshed.trans
  refine (evolve_updateAction b key _).trans hrefreshed fun a a₁ a' hupdate hrefresh ↦ ?_
  rw [touched_iff] at hupdate ⊢
  refine ⟨fun hkey ↦ ?_, fun hkey ↦ ?_⟩
  · rw [Requeued, ← hupdate.1 hkey]
    exact hrefresh
  · obtain rfl := hupdate.2 hkey
    exact hrefresh

/-- Failing a batch fails the action it is failed for and cancels the other unfinished ones. -/
theorem evolve_failBatch (key : String) {f : ActionRow → ActionRow}
    (hf : ∀ a, (f a).inputKey = a.inputKey) (failure : String) :
    Evolve (Touched key (fun a a' ↦ a' = { f a with state := .failed }) fun a a' ↦
        if a.state.unfinished then a' = { a with state := .cancelled } else a' = a) b.actions
      ((b.updateAction key f).failBatch key failure).actions := by
  refine (evolve_setState key hf .failed).trans (evolve_endBatch _ _ _) fun a a₁ a' hset hend ↦ ?_
  rw [touched_iff] at hset ⊢
  refine ⟨fun hkey ↦ ?_, fun hkey ↦ ?_⟩
  · rw [hset.1 hkey] at hend
    exact hend
  · obtain rfl := hset.2 hkey
    exact hend

/-- An update of the priorities changes nothing else. -/
theorem evolve_reprioritise (b : BatchRow) (priority : List (String × Priority)) :
    Evolve (fun a a' ↦ ∃ depth count,
        a' = { a with criticalDepth := depth, descendantCount := count }) b.actions
      (b.reprioritise priority).actions := by
  refine evolve_map fun a _ ↦ ?_
  split
  · split
    · exact ⟨_, _, rfl⟩
    · exact ⟨a.criticalDepth, a.descendantCount, rfl⟩
  · exact ⟨a.criticalDepth, a.descendantCount, rfl⟩

/-- Adding an edge changes nothing but priorities in the rows. -/
theorem evolve_addEdge {child parent : String} {added : BatchRow}
    (hadded : b.addEdge child parent = .ok (some added)) :
    Evolve (fun a a' ↦ ∃ depth count,
      a' = { a with criticalDepth := depth, descendantCount := count }) b.actions added.actions := by
  unfold addEdge at hadded
  split at hadded
  · cases hadded
  · cases hadded
  · rename_i priority _
    obtain rfl := Option.some.inj (Except.ok.inj hadded)
    simpa using evolve_reprioritise (b.insertEdge child parent) priority

/-- Assumes: an update that leaves the key alone. A blocked action is updated and waits, the parent is
re-queued, and the others are kept. -/
theorem evolve_block {child parent : String} {added : BatchRow} {f : ActionRow → ActionRow}
    (hf : ∀ a, (f a).inputKey = a.inputKey)
    (hadded : (b.updateAction child f).addEdge child parent = .ok (some added)) :
    Evolve (Touched child
        (fun a a' ↦ Kept { f a with state := .waiting } a' ∧ a'.state = .waiting)
        (Touched parent (fun a a' ↦ Kept (if a.state = .done then { a with state := .waiting } else a)
          a') Kept)) b.actions (added.block child parent).actions := by
  have hadd : Evolve (Touched child (fun a a' ↦ Kept (f a) a') Kept) b.actions added.actions := by
    refine (evolve_updateAction b child f).trans (evolve_addEdge hadded) fun a a₁ a' hfirst hadd ↦ ?_
    obtain ⟨depth, count, rfl⟩ := hadd
    have hkept : Kept a₁ { a₁ with criticalDepth := depth, descendantCount := count } :=
      ⟨a₁.remainingDeps, a₁.state, depth, count, Or.inl rfl, rfl⟩
    rw [touched_iff] at hfirst ⊢
    exact ⟨fun hkey ↦ hfirst.1 hkey ▸ hkept, fun hkey ↦ hfirst.2 hkey ▸ hkept⟩
  have hwait : Evolve (Touched child
      (fun a a' ↦ Kept { f a with state := .waiting } a' ∧ a'.state = .waiting) Kept)
      b.actions (added.setState child .waiting).actions := by
    refine hadd.trans (evolve_updateAction added child _) fun a a₁ a' hfirst hset ↦ ?_
    rw [touched_iff] at hfirst hset ⊢
    refine ⟨fun hkey ↦ ?_, fun hkey ↦ ?_⟩
    · have hkept := hfirst.1 hkey
      rw [hset.1 (by rw [hkept.inputKey, hf, hkey])]
      exact ⟨hkept.withState .waiting, rfl⟩
    · have hkept := hfirst.2 hkey
      rw [hset.2 (by rwa [hkept.inputKey])]
      exact hkept
  refine hwait.trans (evolve_requeue _ parent) fun a a₁ a' hfirst hrequeue ↦ ?_
  rw [touched_iff] at hfirst hrequeue ⊢
  refine ⟨fun hkey ↦ ?_, fun hkey ↦ touched_iff.mpr ⟨fun hparent ↦ ?_, fun hparent ↦ ?_⟩⟩
  · obtain ⟨hkept, hwaiting⟩ := hfirst.1 hkey
    have hrefreshed : Refreshed a₁ a' := by
      by_cases hparent : a₁.inputKey = parent
      · have hrequeued := hrequeue.1 hparent
        rwa [Requeued, if_neg (by simp [hwaiting])] at hrequeued
      · exact hrequeue.2 hparent
    exact ⟨hkept.trans hrefreshed.kept, hrefreshed.state_eq (Or.inl rfl) hwaiting⟩
  · have hkept := hfirst.2 hkey
    have hrefreshed := hrequeue.1 (by rw [hkept.inputKey, hparent])
    have hstate : a₁.state = .done ↔ a.state = .done := hkept.state_eq_iff rfl
    by_cases hdone : a.state = .done
    · rw [Requeued, if_pos (hstate.mpr hdone)] at hrefreshed
      rw [if_pos hdone]
      exact (hkept.withState .waiting).trans hrefreshed.kept
    · rw [Requeued, if_neg (hstate.not.mpr hdone)] at hrefreshed
      rw [if_neg hdone]
      exact hkept.trans hrefreshed.kept
  · have hkept := hfirst.2 hkey
    exact hkept.trans (hrequeue.2 (by rwa [hkept.inputKey])).kept

/-- Making actions ready keeps the rows. -/
theorem evolve_makeReady (b : BatchRow) (keys : List String) :
    Evolve (fun a a' ↦ a' = a ∨ a.state = .waiting ∧ a.remainingDeps = 0 ∧
      a' = { a with state := .ready }) b.actions (b.makeReady keys).actions := by
  refine evolve_map fun a _ ↦ ?_
  split
  · rename_i hready
    exact Or.inr ⟨hready.2.1, hready.2.2, rfl⟩
  · exact Or.inl rfl

end BatchRow

end Holbuild.RemoteExec
