import Holbuild.RemoteExec.Coordinator

/-!
# Leases, running actions and running batches

The lease invariant of the coordinator. `BatchRow.Leased` says of a batch that its leases are of its
running actions, one of each, that a running batch has an action left to do and none that was
cancelled, and that an ended batch has nothing left to do. Every change keeps it
(`Leased.of_change`), so that it holds of every batch in every reachable state (`leased`), and
`lease_invariant` reads off what it says about the database.

Two relations between rows carry the proof. `Settles key` is what becomes of the rows when the attempt
at one action ends and its lease is deleted; `Goes` is what becomes of a row whose lease, if it has
one, stays.
-/

set_option autoImplicit false
set_option relaxedAutoImplicit false

namespace Holbuild.RemoteExec

open Library

/-! ### The invariant -/

/-- The lease invariant of a batch. -/
structure BatchRow.Leased (b : BatchRow) : Prop where
  keys_nodup : b.keys.Nodup
  tokens_nodup : (b.leases.map (·.attemptToken)).Nodup
  lease_keys_nodup : (b.leases.map (·.inputKey)).Nodup
  lease_key_mem : ∀ key ∈ b.leases.map (·.inputKey), key ∈ b.keys
  running_iff : ∀ a ∈ b.actions, a.state = .running ↔ a.inputKey ∈ b.leases.map (·.inputKey)
  unfinished : b.state = .running → ∃ a ∈ b.actions, a.state.unfinished
  uncancelled : b.state = .running → ∀ a ∈ b.actions, a.state ≠ .cancelled
  ended : b.state ≠ .running → ∀ a ∈ b.actions, a.state.unfinished = false

/-- What becomes of a row whose lease, if it has one, stays. -/
structure Goes (a a' : ActionRow) : Prop where
  inputKey_eq : a'.inputKey = a.inputKey
  running_iff : a'.state = .running ↔ a.state = .running
  unfinished : a.state.unfinished → a'.state.unfinished
  uncancelled : a'.state = .cancelled → a.state = .cancelled

/-- What becomes of the rows when the attempt at an action ends, and it goes to a state in which nobody
works on it. -/
def Settles (key : String) (s : ActionState) (a a' : ActionRow) : Prop :=
  a'.inputKey = a.inputKey ∧ (a.inputKey = key → a'.state = s) ∧ (a.inputKey ≠ key → Goes a a')

theorem Goes.refl (a : ActionRow) : Goes a a := ⟨rfl, Iff.rfl, fun h ↦ h, fun h ↦ h⟩

theorem Kept.goes {a a' : ActionRow} (ha : Kept a a') : Goes a a' :=
  ⟨ha.inputKey, ha.state_eq_iff rfl, fun h ↦ ha.unfinished ▸ h, (ha.state_eq_iff rfl).mp⟩

/-- A row that is re-queued goes on. -/
theorem goes_of_requeued {a a' : ActionRow}
    (ha : Kept (if a.state = .done then { a with state := .waiting } else a) a') : Goes a a' := by
  by_cases hdone : a.state = .done
  · rw [if_pos hdone] at ha
    refine ⟨ha.inputKey, ?_, fun _ ↦ ha.unfinished ▸ rfl, fun hcancelled ↦ ?_⟩
    · simp [ha.state_eq_iff (s := .running) rfl, hdone]
    · simp [ha.state_eq_iff (s := .cancelled) rfl] at hcancelled
  · rw [if_neg hdone] at ha
    exact ha.goes

/-- Assumes: a change that takes the row of an action to a state, while the others go on. -/
theorem settles_of_touched {key : String} {s : ActionState}
    {change rest : ActionRow → ActionRow → Prop} {rows rows' : List ActionRow}
    (hrows : Evolve (Touched key change rest) rows rows')
    (hchange : ∀ a a', change a a' → a'.inputKey = a.inputKey ∧ a'.state = s)
    (hrest : ∀ a a', rest a a' → Goes a a') : Evolve (Settles key s) rows rows' := by
  refine hrows.imp fun a a' htouched ↦ ?_
  rw [touched_iff] at htouched
  by_cases hkey : a.inputKey = key
  · have hchanged := hchange a a' (htouched.1 hkey)
    exact ⟨hchanged.1, fun _ ↦ hchanged.2, fun h ↦ absurd hkey h⟩
  · have hgoes := hrest a a' (htouched.2 hkey)
    exact ⟨hgoes.inputKey_eq, fun h ↦ absurd h hkey, fun _ ↦ hgoes⟩

namespace BatchRow.Leased

open BatchRow

variable {b b' : BatchRow}

/-- A batch with a lease is running. -/
theorem running_of_lease (hb : b.Leased) {lease : LeaseRow} (hlease : lease ∈ b.leases) :
    b.state = .running := by
  by_contra hended
  obtain ⟨a, ha, hkey⟩ := List.mem_map.mp (hb.lease_key_mem _ (List.mem_map_of_mem hlease))
  have hrunning := (hb.running_iff a ha).mpr (hkey ▸ List.mem_map_of_mem hlease)
  have hfinished := hb.ended hended a ha
  rw [hrunning] at hfinished
  cases hfinished

/-- The actions that leases name are running. -/
theorem leasesRun (hb : b.Leased) : b.LeasesRun := fun _ hlease a ha hkey ↦
  (hb.running_iff a ha).mpr (hkey ▸ List.mem_map_of_mem hlease)

/-- The row of an attempt is running before and after its report. -/
theorem reported_state (hb : b.Leased) {lease : LeaseRow} {f : ActionRow → ActionRow}
    {tier : Option Tier} {back : ℤ} (hlease : lease ∈ b.leases) (hf : Records f tier back)
    {a' : ActionRow} (ha' : a' ∈ (b.reported lease f).actions) (hkey : a'.inputKey = lease.inputKey) :
    a'.state = .running := by
  have hrows := evolve_updateAction (b.deleteLease lease.attemptToken) lease.inputKey f
  obtain ⟨a, ha, htouched⟩ := hrows.exists_before ha'
  rw [touched_iff] at htouched
  by_cases hsame : a.inputKey = lease.inputKey
  · obtain ⟨log, failure, heq⟩ := hf a
    rw [htouched.1 hsame, heq]
    exact hb.leasesRun lease hlease a ha hsame
  · exact absurd (htouched.2 hsame ▸ hkey) hsame

/-- Assumes: rows that go on, under the same leases, in a batch that stays running. The invariant is
kept. -/
theorem of_goes (hb : b.Leased) (hrunning : b.state = .running) (hstate : b'.state = .running)
    (hrows : Evolve Goes b.actions b'.actions)
    (htokens : b'.leases.map (·.attemptToken) = b.leases.map (·.attemptToken))
    (hkeys : b'.leases.map (·.inputKey) = b.leases.map (·.inputKey)) : b'.Leased := by
  have hkeys' : b'.keys = b.keys := hrows.map_eq fun _ _ h ↦ h.inputKey_eq
  refine ⟨hkeys' ▸ hb.keys_nodup, htokens ▸ hb.tokens_nodup, hkeys ▸ hb.lease_keys_nodup, ?_, ?_, ?_,
    ?_, fun hended ↦ absurd hstate hended⟩
  · rw [hkeys, hkeys']
    exact hb.lease_key_mem
  · intro a' ha'
    obtain ⟨a, ha, hgoes⟩ := hrows.exists_before ha'
    rw [hgoes.running_iff, hgoes.inputKey_eq, hkeys]
    exact hb.running_iff a ha
  · intro _
    obtain ⟨a, ha, hunfinished⟩ := hb.unfinished hrunning
    obtain ⟨a', ha', hgoes⟩ := hrows.exists_after ha
    exact ⟨a', ha', hgoes.unfinished hunfinished⟩
  · intro _ a' ha' hcancelled
    obtain ⟨a, ha, hgoes⟩ := hrows.exists_before ha'
    exact hb.uncancelled hrunning a ha (hgoes.uncancelled hcancelled)

/-- Assumes: an attempt that ends, its lease being deleted, and a batch that is running exactly when an
action is left to do. The invariant is kept. -/
theorem of_settles (hb : b.Leased) {lease : LeaseRow} (hlease : lease ∈ b.leases) {s : ActionState}
    (hs : s ≠ .running) (hs' : s ≠ .cancelled)
    (hrows : Evolve (Settles lease.inputKey s) b.actions b'.actions)
    (hleases : b'.leases = b.leases.filter (·.attemptToken ≠ lease.attemptToken))
    (hstate : b'.state = .running ↔ ∃ a ∈ b'.actions, a.state.unfinished) : b'.Leased := by
  have hrunning := hb.running_of_lease hlease
  have hkeys' : b'.keys = b.keys := hrows.map_eq fun _ _ h ↦ h.1
  have hsublist : b'.leases.Sublist b.leases := hleases ▸ List.filter_sublist
  have hmem : ∀ key, key ∈ b'.leases.map (·.inputKey) ↔
      key ∈ b.leases.map (·.inputKey) ∧ key ≠ lease.inputKey := by
    intro key
    constructor
    · intro hkey
      obtain ⟨l, hl, rfl⟩ := List.mem_map.mp hkey
      rw [hleases, List.mem_filter, decide_eq_true_eq] at hl
      refine ⟨List.mem_map_of_mem hl.1, fun heq ↦ hl.2 ?_⟩
      rw [eq_of_key_eq hb.lease_keys_nodup hl.1 hlease heq]
    · rintro ⟨hkey, hne⟩
      obtain ⟨l, hl, rfl⟩ := List.mem_map.mp hkey
      rw [hleases]
      refine List.mem_map_of_mem (List.mem_filter.mpr ⟨hl, decide_eq_true fun heq ↦ hne ?_⟩)
      rw [eq_of_key_eq hb.tokens_nodup hl hlease heq]
  refine ⟨hkeys' ▸ hb.keys_nodup, (hsublist.map _).nodup hb.tokens_nodup,
    (hsublist.map _).nodup hb.lease_keys_nodup, ?_, ?_, hstate.mp, ?_, ?_⟩
  · intro key hkey
    rw [hkeys']
    exact hb.lease_key_mem key ((hmem key).mp hkey).1
  · intro a' ha'
    obtain ⟨a, ha, hkey, hsettled, hother⟩ := hrows.exists_before ha'
    rw [hmem, hkey, ← hb.running_iff a ha]
    by_cases hsame : a.inputKey = lease.inputKey
    · simp [hsettled hsame, hs, hsame]
    · simp [(hother hsame).running_iff, hsame]
  · intro _ a' ha' hcancelled
    obtain ⟨a, ha, -, hsettled, hother⟩ := hrows.exists_before ha'
    by_cases hsame : a.inputKey = lease.inputKey
    · exact hs' ((hsettled hsame).symm.trans hcancelled)
    · exact hb.uncancelled hrunning a ha ((hother hsame).uncancelled hcancelled)
  · intro hended a' ha'
    by_contra hunfinished
    exact hended (hstate.mpr ⟨a', ha', by simpa using hunfinished⟩)

/-- Assumes: a batch that ends, with no lease and nothing left to do. The invariant is kept. -/
theorem of_ended (hb : b.Leased) (hkeys : b'.keys = b.keys) (hstate : b'.state ≠ .running)
    (hleases : b'.leases = [])
    (hfinished : ∀ a ∈ b'.actions, a.state.unfinished = false) : b'.Leased := by
  refine ⟨hkeys ▸ hb.keys_nodup, by simp [hleases], by simp [hleases], by simp [hleases], ?_,
    fun h ↦ absurd h hstate, fun h ↦ absurd h hstate, fun _ ↦ hfinished⟩
  intro a ha
  have hnot : a.state ≠ .running := by
    intro hrunning
    have hunfinished := hfinished a ha
    rw [hrunning] at hunfinished
    cases hunfinished
  simp [hnot, hleases]

/-- Assumes: a ready action of a running batch, and a token of no lease. A claim keeps the
invariant. -/
theorem of_claim (hb : b.Leased) {settings : Settings} {now : Time} {token : Uuid} {worker : String}
    {a : ActionRow} (hrunning : b.state = .running) (ha : a ∈ b.actions) (hready : a.state = .ready)
    (htoken : token ∉ b.leases.map (·.attemptToken)) :
    (b.claimAction settings now token worker a.inputKey).Leased := by
  set b' := b.claimAction settings now token worker a.inputKey with hb'
  have hrows : Evolve (Touched a.inputKey
      (fun a a' ↦ a' = { a with
        state := .running, attempts := a.attempts + 1, lastClaimedAt := some now })
      fun a a' ↦ a' = a) b.actions b'.actions := evolve_updateAction b a.inputKey _
  have hkeys : b'.keys = b.keys := keys_updateAction fun _ ↦ rfl
  have hunleased : a.inputKey ∉ b.leases.map (·.inputKey) := by
    rw [← hb.running_iff a ha, hready]
    simp
  have hleases : b'.leases.map (·.inputKey) = b.leases.map (·.inputKey) ++ [a.inputKey] := by
    simp [hb', claimAction]
  have htokens : b'.leases.map (·.attemptToken) = b.leases.map (·.attemptToken) ++ [token] := by
    simp [hb', claimAction]
  refine ⟨hkeys ▸ hb.keys_nodup, ?_, ?_, ?_, ?_, ?_, ?_, fun h ↦ absurd hrunning h⟩
  · rw [htokens]
    exact hb.tokens_nodup.append (List.nodup_singleton _) (List.disjoint_singleton.mpr htoken)
  · rw [hleases]
    exact hb.lease_keys_nodup.append (List.nodup_singleton _)
      (List.disjoint_singleton.mpr hunleased)
  · rw [hleases, hkeys]
    intro key hkey
    rcases List.mem_append.mp hkey with hkey | hkey
    · exact hb.lease_key_mem key hkey
    · rw [List.mem_singleton.mp hkey]
      exact List.mem_map_of_mem ha
  · intro c' hc'
    obtain ⟨c, hc, htouched⟩ := hrows.exists_before hc'
    rw [touched_iff] at htouched
    rw [hleases, List.mem_append, List.mem_singleton]
    by_cases hkey : c.inputKey = a.inputKey
    · simp [htouched.1 hkey, hkey]
    · simp [htouched.2 hkey, hb.running_iff c hc, hkey]
  · intro _
    obtain ⟨a', ha', htouched⟩ := hrows.exists_after ha
    exact ⟨a', ha', by rw [(touched_iff.mp htouched).1 rfl]; rfl⟩
  · intro _ c' hc'
    obtain ⟨c, hc, htouched⟩ := hrows.exists_before hc'
    rw [touched_iff] at htouched
    by_cases hkey : c.inputKey = a.inputKey
    · simp [htouched.1 hkey]
    · rw [htouched.2 hkey]
      exact hb.uncancelled hrunning c hc

/-- Assumes: an attempt that ends with its action in a state, before a refresh. -/
theorem settles_refresh {lease : LeaseRow} {f : ActionRow → ActionRow}
    (hf : ∀ a, (f a).inputKey = a.inputKey) {s : ActionState}
    (hs : s = .waiting ∨ s.queued = false) (selected : String → Bool) :
    Evolve (Settles lease.inputKey s) b.actions
      (((b.reported lease f).setState lease.inputKey s).refresh selected).actions := by
  have hrows := evolve_setState_refresh (b := b.deleteLease lease.attemptToken) lease.inputKey hf s
    selected
  refine settles_of_touched hrows (fun a a' ha ↦ ?_) fun a a' ha ↦ ha.1.kept.goes
  exact ⟨ha.kept.inputKey.trans (hf a), ha.state_eq hs rfl⟩

/-- Assumes: an attempt that ends with its action waiting. The invariant is kept. -/
theorem of_waiting (hb : b.Leased) {lease : LeaseRow} {a : ActionRow}
    (hattempt : Attempt b lease a)
    (hrows : Evolve (Settles lease.inputKey .waiting) b.actions b'.actions)
    (hleases : b'.leases = b.leases.filter (·.attemptToken ≠ lease.attemptToken))
    (hstate : b'.state = b.state) : b'.Leased := by
  refine hb.of_settles hattempt.lease_mem (by simp) (by simp) hrows hleases
    ⟨fun _ ↦ ?_, fun _ ↦ hstate.trans (hb.running_of_lease hattempt.lease_mem)⟩
  obtain ⟨a', ha', hsettles⟩ := hrows.exists_after hattempt.action_mem
  exact ⟨a', ha', by rw [hsettles.2.1 hattempt.inputKey_eq]; rfl⟩

/-- Assumes: an attempt that ends with its action done or failed, before the check whether the batch is
done. The invariant is kept. -/
theorem of_finishIfDone (hb : b.Leased) {lease : LeaseRow} (hlease : lease ∈ b.leases)
    {s : ActionState} (hs : s = .done ∨ s = .failed)
    (hrows : Evolve (Settles lease.inputKey s) b.actions b'.actions)
    (hleases : b'.leases = b.leases.filter (·.attemptToken ≠ lease.attemptToken))
    (hstate : b'.state = b.state) : b'.finishIfDone.Leased := by
  have hrunning := hb.running_of_lease hlease
  have huncancelled : ∀ a ∈ b'.actions, a.state ≠ .cancelled := by
    intro a' ha' hcancelled
    obtain ⟨a, ha, -, hsettled, hother⟩ := hrows.exists_before ha'
    by_cases hsame : a.inputKey = lease.inputKey
    · rw [hsettled hsame] at hcancelled
      rcases hs with rfl | rfl <;> cases hcancelled
    · exact hb.uncancelled hrunning a ha ((hother hsame).uncancelled hcancelled)
  have hfinished : ∀ a ∈ b'.actions,
      a.state.unfinished = false ↔ a.state = .done ∨ a.state = .failed := by
    intro a ha
    have hnot := huncancelled a ha
    cases hstate : a.state <;> simp_all [ActionState.unfinished]
  have hnot : s ≠ .running ∧ s ≠ .cancelled := by rcases hs with rfl | rfl <;> simp
  refine hb.of_settles hlease hnot.1 hnot.2 (by rwa [finishIfDone_actions])
    (by rwa [finishIfDone_leases]) ?_
  rw [finishIfDone_state, finishIfDone_actions, hstate, hrunning]
  by_cases hall : ∀ a ∈ b'.actions, a.state = .done ∨ a.state = .failed
  · rw [if_pos hall]
    refine ⟨fun h ↦ (by cases h), ?_⟩
    rintro ⟨a, ha, hunfinished⟩
    rw [(hfinished a ha).mpr (hall a ha)] at hunfinished
    cases hunfinished
  · rw [if_neg hall]
    refine ⟨fun _ ↦ ?_, fun _ ↦ rfl⟩
    push Not at hall
    obtain ⟨a, ha, hdone, hfailed⟩ := hall
    refine ⟨a, ha, ?_⟩
    by_contra hunfinished
    rw [Bool.not_eq_true, hfinished a ha] at hunfinished
    exact hunfinished.elim hdone hfailed

/-- Ending a batch keeps the invariant. -/
theorem of_endBatch (hb : b.Leased) {state : BatchState} (failure : Option String)
    (hkeys : b'.keys = b.keys) (hstate : state ≠ .running) : (b'.endBatch state failure).Leased := by
  refine hb.of_ended ?_ hstate rfl fun a' ha' ↦ ?_
  · rw [← hkeys]
    exact (evolve_endBatch b' state failure).map_eq fun a a' ha ↦ by split at ha <;> rw [ha]
  · obtain ⟨a, ha, hend⟩ := (evolve_endBatch b' state failure).exists_before ha'
    split at hend
    · rw [hend]
      rfl
    · rename_i hfinished
      rw [hend]
      simpa using hfinished

/-- Failing a batch keeps the invariant. -/
theorem of_failBatch (hb : b.Leased) (key failure : String) (hkeys : b'.keys = b.keys) :
    (b'.failBatch key failure).Leased := by
  have hset : (b'.setState key .failed).keys = b'.keys := keys_updateAction fun _ ↦ rfl
  exact hb.of_endBatch (some failure) (hset.trans hkeys) (by simp)

/-- Every change keeps the invariant. -/
theorem of_change (hb : b.Leased) {settings : Settings} {marks : List Mark}
    (hchange : Change settings b marks b') : b'.Leased := by
  cases hchange with
  | claim now token worker hrunning ha hready htoken => exact hb.of_claim hrunning ha hready htoken
  | heartbeat now token =>
    have htokens : (b.heartbeat settings now token).leases.map (·.attemptToken) =
        b.leases.map (·.attemptToken) := by
      rw [heartbeat, List.map_map]
      exact List.map_congr_left fun l _ ↦ by simp only [Function.comp_apply]; split <;> rfl
    have hkeys : (b.heartbeat settings now token).leases.map (·.inputKey) =
        b.leases.map (·.inputKey) := by
      rw [heartbeat, List.map_map]
      exact List.map_congr_left fun l _ ↦ by simp only [Function.comp_apply]; split <;> rfl
    exact ⟨hb.keys_nodup, htokens ▸ hb.tokens_nodup, hkeys ▸ hb.lease_keys_nodup,
      hkeys ▸ hb.lease_key_mem, hkeys ▸ hb.running_iff, hb.unfinished, hb.uncancelled, hb.ended⟩
  | makeReady keys hrunning =>
    refine hb.of_goes hrunning hrunning ((evolve_makeReady b keys).imp fun a a' ha ↦ ?_) rfl rfl
    rcases ha with rfl | ⟨hwaiting, -, rfl⟩
    · exact Goes.refl a'
    · exact ⟨rfl, by simp [hwaiting], fun _ ↦ rfl, fun h ↦ by cases h⟩
  | @requeue parent hrunning hparent hdone hattempts =>
    refine hb.of_goes hrunning hrunning ((evolve_requeue b _).imp fun a a' ha ↦ ?_) rfl rfl
    rw [touched_iff] at ha
    by_cases hkey : a.inputKey = parent.inputKey
    · exact goes_of_requeued (ha.1 hkey).kept
    · exact (ha.2 hkey).kept.goes
  | evict text hrunning ha hdone => exact hb.of_failBatch _ _ rfl
  | stop failure hrunning hstate => exact hb.of_endBatch failure rfl hstate
  | @ends lease _ _ _ hends =>
    cases hends with
    | finish hattempt hf =>
      exact hb.of_finishIfDone hattempt.lease_mem (Or.inl rfl)
        (settles_refresh hf.inputKey (Or.inr rfl) _) rfl rfl
    | retry hattempt hf | raise hattempt hf | unavailable hattempt hf =>
      exact hb.of_waiting hattempt (settles_refresh hf.inputKey (Or.inl rfl) _) rfl rfl
    | @block a f parent added hattempt hf hattempts hparent hadded =>
      refine hb.of_waiting hattempt ?_ (addEdge_frame hadded).2.2.1 (addEdge_frame hadded).2.1
      refine settles_of_touched (evolve_block (b := b.deleteLease lease.attemptToken) hf.inputKey hadded)
        (fun a a' ha ↦ ?_) fun a a' ha ↦ ?_
      · exact ⟨ha.1.inputKey.trans (hf.inputKey a), ha.2⟩
      · rw [touched_iff] at ha
        by_cases hkey : a.inputKey = parent
        · exact goes_of_requeued (ha.1 hkey)
        · exact (ha.2 hkey).goes
    | @failRun a f hattempt hf hclass =>
      refine hb.of_finishIfDone hattempt.lease_mem (Or.inr rfl) ?_ rfl rfl
      refine settles_of_touched (evolve_setState (b := b.deleteLease lease.attemptToken) _ hf.inputKey
        .failed) (fun a a' ha ↦ ?_) fun a a' ha ↦ ha ▸ Goes.refl a
      rw [ha]
      exact ⟨hf.inputKey a, rfl⟩
    | failBuild failure hattempt hf | resubmit failure hattempt hf =>
      exact hb.of_failBatch _ _ (keys_reported hf)

end BatchRow.Leased

/-! ### Every reachable state -/

section Reachable

variable {settings : Settings} {s : State}

/-- A submitted batch satisfies the invariant. -/
theorem Fresh.leased {id : Uuid} {batch : Batch} {actionClass : ActionClass} {b : BatchRow}
    (hb : Fresh id batch actionClass b) : b.Leased := by
  have hwaiting : ∀ a ∈ b.actions, a.state ≠ .running ∧ a.state ≠ .cancelled := by
    intro a ha
    rw [hb.waiting a ha]
    simp
  refine ⟨hb.keys_eq ▸ batch.keys_nodup, by simp [hb.leases_eq], by simp [hb.leases_eq],
    by simp [hb.leases_eq], fun a ha ↦ by simp [hb.leases_eq, hwaiting a ha], fun hrunning ↦ ?_,
    fun _ a ha ↦ (hwaiting a ha).2, fun hended a ha ↦ ?_⟩
  · have hlength : b.actions.length = batch.actions.length := by
      simpa [BatchRow.keys] using congrArg List.length hb.keys_eq
    have hne : batch.actions ≠ [] := by
      intro hempty
      rw [hb.state_eq, if_pos hempty] at hrunning
      cases hrunning
    obtain ⟨a, ha⟩ := List.exists_mem_of_length_pos (hlength ▸ List.length_pos_iff.mpr hne)
    exact ⟨a, ha, by rw [hb.waiting a ha]; rfl⟩
  · have hempty : batch.actions = [] := by
      by_contra hne
      exact hended (hb.state_eq.trans (if_neg hne))
    have hkey : a.inputKey ∈ b.keys := List.mem_map_of_mem ha
    rw [hb.keys_eq, hempty] at hkey
    cases hkey

/-- In every reachable state the batches are sound and satisfy the lease invariant. -/
theorem leased (hs : (coordinator settings).Reachable s) :
    s.Sound ∧ ∀ b ∈ s.db.batches, b.Leased :=
  invariant_of_changes (fun _ hb ↦ hb.leasesRun)
    (fun _ _ _ _ _ _ _ hnew ↦ (fresh_of_submittedBatch hnew).leased)
    (fun _ _ _ hb hchange ↦ hb.of_change hchange) hs

/-- Assumes: a property that submitted batches have and that changes keep, in a batch that satisfies
the lease invariant. Every batch of a reachable state has it. -/
theorem invariant_of_leased {P : BatchRow → Prop}
    (hsubmitted : ∀ id batch actionClass b, Fresh id batch actionClass b → P b)
    (hchange : ∀ b marks b', b.Leased → P b → Change settings b marks b' → P b')
    (hs : (coordinator settings).Reachable s) : ∀ b ∈ s.db.batches, P b := by
  have hall := invariant_of_changes (P := fun b ↦ b.Leased ∧ P b) (fun _ hb ↦ hb.1.leasesRun)
    (fun _ _ _ _ _ _ _ hnew ↦
      ⟨(fresh_of_submittedBatch hnew).leased, hsubmitted _ _ _ _ (fresh_of_submittedBatch hnew)⟩)
    (fun b marks b' hb h ↦ ⟨hb.1.of_change h, hchange b marks b' hb.1 hb.2 h⟩) hs
  exact fun b hb ↦ (hall.2 b hb).2

/-- The rows of `leases`, each with its batch. -/
def Db.leases (db : Db) : List (Uuid × LeaseRow) :=
  db.batches.flatMap fun b ↦ b.leases.map (b.id, ·)

/-- Assumes: distinct ids. The leases of the database that name an action are those of its batch. -/
theorem countP_leases {batches : List BatchRow} (hnodup : (batches.map (·.id)).Nodup)
    {b : BatchRow} (hb : b ∈ batches) (key : String) :
    (batches.flatMap fun b ↦ b.leases.map (b.id, ·)).countP
        (fun r ↦ r.1 = b.id ∧ r.2.inputKey = key) =
      b.leases.countP (·.inputKey = key) := by
  induction batches with
  | nil => cases hb
  | cons c rest ih =>
    obtain ⟨hc, hrest⟩ := List.nodup_cons.mp hnodup
    rw [List.flatMap_cons, List.countP_append, List.countP_map]
    rcases List.mem_cons.mp hb with rfl | hb
    · have hzero : (rest.flatMap fun b ↦ b.leases.map (b.id, ·)).countP
          (fun r ↦ r.1 = b.id ∧ r.2.inputKey = key) = 0 := by
        rw [List.countP_eq_zero]
        intro r hr
        obtain ⟨d, hd, hr⟩ := List.mem_flatMap.mp hr
        obtain ⟨l, -, rfl⟩ := List.mem_map.mp hr
        have hne : d.id ≠ b.id := fun heq ↦ hc (List.mem_map.mpr ⟨d, hd, heq⟩)
        simp [hne]
      rw [hzero, add_zero]
      simp [Function.comp_def]
    · have hne : c.id ≠ b.id := fun heq ↦ hc (List.mem_map.mpr ⟨b, hb, heq.symm⟩)
      rw [ih hrest hb]
      simp [Function.comp_def, hne]

/-- A step that issues a lease of an action claims it, ready in a running batch. -/
theorem ready_of_new_lease (hs : (coordinator settings).Reachable s) {e : Event} {s' : State}
    (hstep : step settings s e = some s') {r : Uuid × LeaseRow} (hr : r ∈ s'.db.leases)
    (hnew : ∀ r₀ ∈ s.db.leases, r₀.2.attemptToken ≠ r.2.attemptToken) :
    ∃ b ∈ s.db.batches, b.id = r.1 ∧ b.state = .running ∧
      ∃ a ∈ b.actions, a.inputKey = r.2.inputKey ∧ a.state = .ready := by
  obtain ⟨hsound, hleased⟩ := leased hs
  obtain ⟨b', hb', hr⟩ := List.mem_flatMap.mp hr
  obtain ⟨l, hl, rfl⟩ := List.mem_map.mp hr
  have hfresh : ∀ b ∈ s.db.batches, ∀ l₀ ∈ b.leases, l₀.attemptToken ≠ l.attemptToken :=
    fun b hb l₀ hl₀ ↦ hnew (b.id, l₀)
      (List.mem_flatMap.mpr ⟨b, hb, List.mem_map.mpr ⟨l₀, hl₀, rfl⟩⟩)
  rcases exists_becomes hsound (fun b hb ↦ (hleased b hb).leasesRun) hstep hb' with
    ⟨b, hb, ⟨rfl, -⟩ | hchange⟩ | ⟨id, batch, profile, actionClass, high, -, -, hsubmitted⟩
  · exact absurd rfl (hfresh b' hb l hl)
  · refine ⟨b, hb, hchange.id.symm, ?_⟩
    rcases hchange.tokens hl with ⟨l₀, hl₀, htoken, -⟩ | hmark
    · exact absurd htoken (hfresh b hb l₀ hl₀)
    · generalize marksOf b.id (observe settings s e) = marks at hchange hmark
      cases hchange with
      | @claim a now token worker hrunning ha hready htoken =>
        rcases List.mem_append.mp hl with hl | hl
        · exact absurd rfl (hfresh b hb l hl)
        · rw [List.mem_singleton.mp hl]
          exact ⟨hrunning, a, ha, rfl, hready⟩
      | ends hends =>
        cases hends with
        | unavailable => simp at hmark
        | _ => cases hmark
      | _ => cases hmark
  · rw [(fresh_of_submittedBatch hsubmitted).leases_eq] at hl
    cases hl

/-- In every reachable state, an action is running exactly when exactly one lease names it; a lease is
of an action of a running batch; a batch that ended has no action left to do; and a running batch has
one. -/
theorem lease_invariant (hs : (coordinator settings).Reachable s) :
    (∀ b ∈ s.db.batches, ∀ a ∈ b.actions, a.state = .running ↔
      s.db.leases.countP (fun r ↦ r.1 = b.id ∧ r.2.inputKey = a.inputKey) = 1) ∧
    (∀ r ∈ s.db.leases, ∃ b ∈ s.db.batches, b.id = r.1 ∧ b.state = .running ∧
      r.2.inputKey ∈ b.keys) ∧
    (∀ b ∈ s.db.batches, b.state ∈ [.done, .failed, .cancelled] →
      ∀ a ∈ b.actions, a.state ∉ [.waiting, .ready, .running]) ∧
    (∀ b ∈ s.db.batches, b.state = .running →
      ∃ a ∈ b.actions, a.state ∈ [.waiting, .ready, .running]) := by
  obtain ⟨hsound, hall⟩ := leased hs
  have hunfinished : ∀ a : ActionRow,
      a.state ∈ [.waiting, .ready, .running] ↔ a.state.unfinished = true := by
    intro a
    cases a.state <;> simp [ActionState.unfinished]
  refine ⟨fun b hb a ha ↦ ?_, fun r hr ↦ ?_, fun b hb hended a ha ↦ ?_, fun b hb hrunning ↦ ?_⟩
  · have hcount : b.leases.countP (·.inputKey = a.inputKey) =
        (b.leases.map (·.inputKey)).count a.inputKey := by
      rw [List.count, List.countP_map]
      exact List.countP_congr fun l _ ↦ by simp
    rw [Db.leases, countP_leases hsound.ids_nodup hb, (hall b hb).running_iff a ha, hcount]
    refine ⟨List.count_eq_one_of_mem (hall b hb).lease_keys_nodup, fun hone ↦ ?_⟩
    exact List.count_pos_iff.mp (by omega)
  · obtain ⟨b, hb, hr⟩ := List.mem_flatMap.mp hr
    obtain ⟨l, hl, rfl⟩ := List.mem_map.mp hr
    exact ⟨b, hb, rfl, (hall b hb).running_of_lease hl,
      (hall b hb).lease_key_mem _ (List.mem_map_of_mem hl)⟩
  · rw [hunfinished, Bool.not_eq_true]
    refine (hall b hb).ended (fun hrunning ↦ ?_) a ha
    rw [hrunning] at hended
    simp at hended
  · obtain ⟨a, ha, h⟩ := (hall b hb).unfinished hrunning
    exact ⟨a, ha, (hunfinished a).mpr h⟩

end Reachable

theorem lease_invariant_sampleState : sampleState.db.leases ≠ [] ∧
    ∀ b ∈ sampleState.db.batches, ∀ a ∈ b.actions, a.state = .running ↔
      sampleState.db.leases.countP (fun r ↦ r.1 = b.id ∧ r.2.inputKey = a.inputKey) = 1 :=
  ⟨by decide, (lease_invariant reachable_sampleState).1⟩

end Holbuild.RemoteExec
