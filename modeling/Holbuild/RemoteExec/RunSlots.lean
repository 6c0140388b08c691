import Holbuild.RemoteExec.Leases

/-!
# The run slots

How many actions of class `run` are running. A running action is one that a lease names, so the number is
one of leases (`Leased.runningRuns_eq`), and only a claim adds a lease: no other step raises the number
(`runningRuns_step`), and a claim raises it by one when it selects a run. With claims that are atomic a
run is selected only when there is a slot, and the number stays within `run_slots`
(`runningRuns_le_runSlots`).
-/

set_option autoImplicit false
set_option relaxedAutoImplicit false

namespace Holbuild.RemoteExec

open Library

/-! ### One batch -/

section Batches

variable {settings : Settings} {b b' : BatchRow} {marks : List Mark}

/-- The running runs of a batch are the runs that leases name. -/
theorem BatchRow.Leased.runningRuns_eq (hb : b.Leased) : b.runningRuns =
    b.submitted.countP fun x ↦ x.1.inputKey ∈ b.leases.map (·.inputKey) && x.2 = .run := by
  rw [BatchRow.submitted, List.countP_map, BatchRow.runningRuns]
  refine List.countP_congr fun a ha ↦ ?_
  simp [ActionRow.submitted, hb.running_iff a ha]

/-- A change that is no claim does not raise the number of running runs. -/
theorem runningRuns_change (hb : b.Leased) (hchange : Change settings b marks b')
    (hmarks : ∀ key token, Mark.claimed key token ∉ marks) : b'.runningRuns ≤ b.runningRuns := by
  rw [hb.runningRuns_eq, (hb.of_change hchange).runningRuns_eq, hchange.submitted]
  refine List.countP_mono_left fun x _ hx ↦ ?_
  simp only [Bool.and_eq_true, decide_eq_true_eq] at hx ⊢
  obtain ⟨l, hl, hkey⟩ := List.mem_map.mp hx.1
  rcases hchange.tokens hl with ⟨l', hl', -, hsame⟩ | hclaimed
  · exact ⟨List.mem_map.mpr ⟨l', hl', hsame.trans hkey⟩, hx.2⟩
  · exact absurd hclaimed (hmarks _ _)

variable (settings) in
/-- A claim raises the number of running runs by one when its action is a run. -/
theorem runningRuns_claimAction (hb : b.Leased) {a : ActionRow} (ha : a ∈ b.actions) (now : Time)
    (token : Uuid) (worker : String) :
    (b.claimAction settings now token worker a.inputKey).runningRuns ≤
      b.runningRuns + if a.actionClass = .run then 1 else 0 := by
  have hclaimed : (b.actions.countP fun c ↦ c.inputKey = a.inputKey && c.actionClass = .run) ≤
      if a.actionClass = .run then 1 else 0 := by
    split
    · have hone := List.nodup_iff_count_le_one.mp hb.keys_nodup a.inputKey
      rw [BatchRow.keys, List.count, List.countP_map] at hone
      refine le_trans (List.countP_mono_left fun c _ hc ↦ ?_) hone
      simp only [Bool.and_eq_true, decide_eq_true_eq] at hc
      simpa using hc.1
    · rename_i hclass
      refine (List.countP_eq_zero.mpr fun c hc hkey ↦ hclass ?_).le
      simp only [Bool.and_eq_true, decide_eq_true_eq] at hkey
      exact eq_of_key_eq hb.keys_nodup hc ha hkey.1 ▸ hkey.2
  refine le_trans ?_ (Nat.add_le_add_left hclaimed _)
  rw [BatchRow.runningRuns, BatchRow.runningRuns, BatchRow.claimAction, BatchRow.updateAction,
    BatchRow.mapActions_actions, List.countP_map]
  refine countP_le_add fun c _ hc ↦ ?_
  rw [Function.comp_apply] at hc
  by_cases hkey : c.inputKey = a.inputKey
  · right
    rw [if_pos hkey] at hc
    simpa [hkey] using hc
  · left
    rwa [if_neg hkey] at hc

end Batches

/-! ### The database -/

section Steps

variable {settings : Settings} {s s' : State} {e : Event}

/-- Assumes: a batch with the id of which a change raises the number by at most some amount. So does the
change of the database. -/
theorem runningRuns_modify {db : Db} (hids : (db.batches.map (·.id)).Nodup) {b : BatchRow}
    (hb : b ∈ db.batches) {f : BatchRow → BatchRow} {k : ℕ}
    (hf : (f b).runningRuns ≤ b.runningRuns + k) :
    (db.modify b.id f).runningRuns ≤ db.runningRuns + k := by
  simp only [Db.runningRuns, Db.modify]
  obtain ⟨before, after, hbatches⟩ := List.append_of_mem hb
  have hother : ∀ c ∈ before ++ after, c.id ≠ b.id := by
    rw [hbatches, List.map_append, List.map_cons] at hids
    obtain ⟨hnot, -⟩ := List.nodup_cons.mp (List.nodup_middle.mp hids)
    rw [← List.map_append] at hnot
    exact fun c hc hid ↦ hnot (List.mem_map.mpr ⟨c, hc, hid⟩)
  have hsame : ∀ batches : List BatchRow, (∀ c ∈ batches, c.id ≠ b.id) →
      batches.map (fun c ↦ if c.id = b.id then f c else c) = batches := by
    intro batches hbatches
    refine (List.map_congr_left fun c hc ↦ ?_).trans (List.map_id batches)
    exact if_neg (hbatches c hc)
  rw [hbatches, List.map_append, List.map_cons, if_pos rfl,
    hsame before fun c hc ↦ hother c (List.mem_append_left _ hc),
    hsame after fun c hc ↦ hother c (List.mem_append_right _ hc)]
  simp only [List.map_append, List.map_cons, List.sum_append, List.sum_cons]
  omega

/-- Only a step that claims raises the number of running runs. -/
theorem runningRuns_step (hsound : s.Sound) (hleased : ∀ b ∈ s.db.batches, b.Leased)
    (hstep : step settings s e = some s')
    (hobserved : ∀ id key token, (id, Mark.claimed key token) ∉ observe settings s e) :
    s'.db.runningRuns ≤ s.db.runningRuns := by
  unfold Db.runningRuns
  rcases step_effect hsound (fun b hb ↦ (hleased b hb).leasesRun) hstep with
    ⟨change, hbatches, hbecomes⟩ | ⟨b', hbatches, hsubmits, -⟩ | ⟨keep, hbatches, -⟩
  · rw [hbatches, List.map_map]
    refine List.sum_le_sum fun b hb ↦ ?_
    rcases hbecomes b hb with ⟨heq, -⟩ | hchange
    · rw [Function.comp_apply, heq]
    · exact runningRuns_change (hleased b hb) hchange fun key token hmark ↦
        hobserved _ _ _ (mem_of_mem_marksOf hmark)
  · obtain ⟨id, batch, profile, actionClass, high, -, -, hnew⟩ := hsubmits
    have hfresh := fresh_of_submittedBatch hnew
    have hzero : b'.runningRuns = 0 := by
      rw [hfresh.leased.runningRuns_eq, hfresh.leases_eq]
      simp
    rw [hbatches, List.map_append, List.sum_append]
    simp [hzero]
  · rw [hbatches]
    exact (List.filter_sublist.map _).sum_le_sum fun _ _ ↦ Nat.zero_le _

/-- A step that is no claim observes none. -/
theorem observe_of_ne_claim (he : ∀ started tiers worker token locked,
    e ≠ .claim started tiers worker token locked) (id : Uuid) (key : String) (token : Uuid) :
    (id, Mark.claimed key token) ∉ observe settings s e := by
  intro hmem
  cases e with
  | claim started tiers worker token locked => exact he _ _ _ _ _ rfl
  | complete drawn result =>
    simp only [observe] at hmem
    split at hmem
    · cases hmem
    · split at hmem
      · split at hmem <;> simp at hmem
      · cases hmem
  | _ => cases hmem

end Steps

/-! ### What a claim can select -/

section Claims

variable {settings : Settings} {db : Db} {b : BatchRow} {a : ActionRow}

/-- Ranked items have a first one. -/
theorem eq_nil_of_firstRanked {α : Type} {rank : α → Db.ClaimRank} {items : List α}
    (hnone : Db.firstRanked rank items = none) : items = [] := by
  cases items with
  | nil => rfl
  | cons => cases hnone

variable (settings) in
/-- Assumes: distinct ids and keys. When the other rows are locked, a query that may select a ready row
selects it, and one that may not selects nothing. -/
theorem claimQuery_only (hids : (db.batches.map (·.id)).Nodup) (hb : b ∈ db.batches)
    (hkeys : b.keys.Nodup) (hrunning : b.state = .running) (ha : a ∈ b.actions) (tiers : List Tier) :
    ∃ locked, ∀ allowRun, db.claimQuery settings tiers allowRun locked =
      if Db.claimable tiers (allowRun && db.runningRuns < settings.runSlots) a then some (b, a)
      else none := by
  let locked := (db.batches.flatMap fun b ↦ b.keys.map (b.id, ·)).filter (· ≠ (b.id, a.inputKey))
  refine ⟨locked, fun allowRun ↦ ?_⟩
  cases hquery : db.claimQuery settings tiers allowRun locked with
  | none =>
    have hempty := eq_nil_of_firstRanked hquery
    rw [List.flatMap_eq_nil_iff] at hempty
    have hrow := hempty b (List.mem_filter.mpr ⟨hb, by simpa using hrunning⟩)
    rw [List.map_eq_nil_iff, List.filter_eq_nil_iff] at hrow
    have hfree : (b.id, a.inputKey) ∉ locked := by simp [locked]
    rw [if_neg]
    exact fun hclaimable ↦ hrow a ha (by rw [hclaimable]; simp [hfree])
  | some row =>
    obtain ⟨b₀, a₀⟩ := row
    obtain ⟨hb₀, -, ha₀, hclaimable, hfree⟩ := claimQuery_eq_some hquery
    have hpair : (b₀.id, a₀.inputKey) = (b.id, a.inputKey) := by
      by_contra hne
      refine hfree (List.mem_filter.mpr ⟨List.mem_flatMap.mpr ⟨b₀, hb₀, ?_⟩, decide_eq_true hne⟩)
      exact List.mem_map_of_mem (List.mem_map_of_mem ha₀)
    obtain ⟨hid, hkey⟩ := Prod.mk.inj hpair
    obtain rfl := eq_of_key_eq hids hb₀ hb hid
    obtain rfl := eq_of_key_eq hkeys ha₀ ha hkey
    rw [if_pos hclaimable]

/-- Assumes: distinct ids and keys. A ready row is what a claim of its tier selects when the other rows are
locked, if it is a build or there is a slot. -/
theorem exists_claimRow (hids : (db.batches.map (·.id)).Nodup) (hb : b ∈ db.batches)
    (hkeys : b.keys.Nodup) (hrunning : b.state = .running) (ha : a ∈ b.actions)
    (hready : a.state = .ready) {tiers : List Tier} (htier : a.tier ∈ tiers)
    (hslots : a.actionClass = .run → db.runningRuns < settings.runSlots) :
    ∃ locked, db.claimRow settings tiers locked = some (b, a) := by
  obtain ⟨locked, hquery⟩ := claimQuery_only settings hids hb hkeys hrunning ha tiers
  refine ⟨locked, ?_⟩
  rw [Db.claimRow, hquery, hquery]
  cases hclass : a.actionClass with
  | build => simp [Db.claimable, hready, htier, hclass]
  | run =>
    have hslot := hslots hclass
    have hsome : db.readyRun tiers = true :=
      List.any_eq_true.mpr ⟨b, hb, List.any_eq_true.mpr ⟨a, ha, by simp [hready, hclass, htier]⟩⟩
    have hpositive : settings.runSlots ≠ 0 := by omega
    simp [Db.claimable, hready, htier, hclass, hsome, hpositive, hslot]

/-- A run that a claim selects has a slot. -/
theorem slot_of_claimRow {tiers : List Tier} {locked : List (Uuid × String)}
    (hrow : db.claimRow settings tiers locked = some (b, a)) (hclass : a.actionClass = .run) :
    db.runningRuns < settings.runSlots := by
  have hslot : ∀ allowRun, db.claimQuery settings tiers allowRun locked = some (b, a) →
      db.runningRuns < settings.runSlots := by
    intro allowRun hquery
    obtain ⟨-, -, -, hclaimable, -⟩ := claimQuery_eq_some hquery
    simp only [Db.claimable, hclass, Bool.and_eq_true, Bool.or_eq_true, decide_eq_true_eq] at hclaimable
    exact (hclaimable.2.resolve_left fun h ↦ by cases h).2
  unfold Db.claimRow at hrow
  split at hrow
  · rename_i row hquery
    exact hslot false (hrow ▸ hquery)
  · split_ifs at hrow
    exact hslot true hrow

end Claims

/-- In every reachable state of the coordinator at most `run_slots` runs are running. -/
theorem runningRuns_le_runSlots {settings : Settings} {s : State}
    (hs : (coordinator settings).Reachable s) : s.db.runningRuns ≤ settings.runSlots := by
  refine hs.invariant (P := fun s ↦ s.db.runningRuns ≤ settings.runSlots) (Nat.zero_le _)
    fun s e s' hreachable hle hstep ↦ ?_
  obtain ⟨hsound, hleased⟩ := leased hreachable
  by_cases hclaim : ∃ started tiers worker token locked, e = .claim started tiers worker token locked
  · obtain ⟨started, tiers, worker, token, locked, rfl⟩ := hclaim
    simp only [coordinator, step] at hstep
    split_ifs at hstep
    split at hstep
    · obtain rfl := Option.some.inj hstep
      exact hle
    · rename_i b a hrow
      obtain rfl := Option.some.inj hstep
      obtain ⟨hb, -, ha, -⟩ := claimRow_eq_some hrow
      refine le_trans (runningRuns_modify hsound.ids_nodup hb
        (runningRuns_claimAction settings (hleased b hb) ha started token worker)) ?_
      split
      · rename_i hclass
        exact slot_of_claimRow hrow hclass
      · exact hle
  · refine le_trans (runningRuns_step hsound hleased hstep (observe_of_ne_claim ?_)) hle
    exact fun started tiers worker token locked he ↦ hclaim ⟨started, tiers, worker, token, locked, he⟩

/-- Two runs. -/
def sampleRuns : Batch where
  actions := [⟨"a", "ac-a", "spec-a", "p:a"⟩, ⟨"b", "ac-b", "spec-b", "p:b"⟩]
  edges := []
  keys_nodup := sampleBatch.keys_nodup
  edges_mem := by decide
  edges_nodup := by decide
  acyclic := (staticOrder_parentsOf_isSome_iff _).mp (by decide)

end Holbuild.RemoteExec
