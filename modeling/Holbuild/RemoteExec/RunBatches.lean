import Holbuild.RemoteExec.Dependencies
import Holbuild.RemoteExec.RunSlots

/-!
# The actions of a run batch are independent

What the failure of one action of a run batch does to the others. The runs considered are those of the
HTTP API, which refuses a run batch with edges, whose results report no action of their own run batch as
a missing theory (`independentEvent`). In them a run batch never gets an edge, so that nothing refreshes
or re-queues another row.

`others_of_step` is the step lemma: the row of an action that an event is not about (`Event.concerns`) is
the same afterwards, unless the event ends the batch (`Event.stops`): a cancel, the deadline, or a
result that misses an input after the last attempt. `exists_claim` leads any waiting or ready action to
a claim, and `closed` says that a run batch is done in the very step that ends its last action.
`run_independence` puts them together. `failed_run_changes_other` are two runs without the restriction.
-/

set_option autoImplicit false
set_option relaxedAutoImplicit false

namespace Holbuild.RemoteExec

open Library

/-- Whether the actions of a batch are runs. -/
def BatchRow.isRun (b : BatchRow) : Bool := b.actions.all (·.actionClass = .run)

/-- What the API admits, a run batch having no edges, and results that report no action of their own run
batch as a missing theory. -/
def independentEvent (s : State) : Event → Bool
  | .submit _ batch _ actionClass => actionClass = .build || batch.edges = []
  | .complete token result =>
    (s.db.leased? token).all fun b ↦ !b.isRun || (b.rebuilt result.missing).isNone
  | _ => true

/-- The coordinator under such events. -/
def independentRuns (settings : Settings) : Machine State Event :=
  (coordinator settings).guard fun s e ↦ independentEvent s e

/-- An event is about an action of a batch: a claim selects it, its attempt ends, or a release makes it
ready. -/
def Event.concerns (settings : Settings) (s : State) (b : BatchRow) (key : String) : Event → Prop
  | .claim _ tiers _ _ locked => ∃ b₀ a, s.db.claimRow settings tiers locked = some (b₀, a) ∧
      b₀.id = b.id ∧ a.inputKey = key
  | .complete token _ | .expireLease token _ =>
    ∃ lease ∈ b.leases, lease.attemptToken = token ∧ lease.inputKey = key
  | .makeReady id candidates _ => id = b.id ∧ key ∈ candidates.map (·.inputKey)
  | _ => False

/-- An event ends a run batch: a cancel, the deadline, or a missing input after the last attempt. -/
def Event.stops (settings : Settings) (b : BatchRow) : Event → Prop
  | .cancel id | .failOverdue id => id = b.id
  | .complete token result => result.failure = some .inputMissing ∧
      ∃ lease a, Attempt b lease a ∧ lease.attemptToken = token ∧ settings.maxAttempts ≤ a.attempts
  | _ => False

/-- The rows of some actions are the same, unless the batch was ended: then they are cancelled where they
were unfinished. -/
def Spared (ended : Prop) (others : ActionRow → Prop) (rows rows' : List ActionRow) : Prop :=
  ∀ a ∈ rows, others a → a ∈ rows' ∨
    ended ∧ a.state.unfinished ∧ { a with state := .cancelled } ∈ rows'

theorem Spared.refl {ended : Prop} {others : ActionRow → Prop} (rows : List ActionRow) :
    Spared ended others rows rows :=
  fun _ ha _ ↦ Or.inl ha

/-- Assumes: a change that leaves every row but one alone. -/
theorem spared_of_touched {ended : Prop} {key : String} {change rest : ActionRow → ActionRow → Prop}
    {rows rows' : List ActionRow} (hrows : Evolve (Touched key change rest) rows rows')
    (hrest : ∀ a a', a.inputKey ≠ key → rest a a' → a' = a) :
    Spared ended (·.inputKey ≠ key) rows rows' := by
  intro a ha hother
  obtain ⟨a', ha', htouched⟩ := hrows.exists_after ha
  have heq := hrest a a' hother ((touched_iff.mp htouched).2 hother)
  exact Or.inl (heq ▸ ha')

namespace BatchRow

variable {settings : Settings} {b b' : BatchRow}

theorem class_of_isRun (hrun : b.isRun) {a : ActionRow} (ha : a ∈ b.actions) : a.actionClass = .run :=
  of_decide_eq_true (List.all_eq_true.mp hrun a ha)

/-- A batch is of runs as it was submitted. -/
theorem isRun_of_submitted (hsubmitted : b'.submitted = b.submitted) : b'.isRun = b.isRun := by
  have hall : ∀ c : BatchRow, c.isRun = c.submitted.all (·.2 = .run) := by
    intro c
    rw [isRun, submitted, List.all_map]
    rfl
  rw [hall, hall, hsubmitted]

/-- An action of the batch is built again when it is reported missing. -/
theorem rebuilt_ne_none {parent : String} (hparent : parent ∈ b.keys) :
    b.rebuilt (some ⟨.theory, parent⟩) ≠ none := by
  obtain ⟨a, ha, rfl⟩ := List.mem_map.mp hparent
  simp only [rebuilt, ne_eq, Option.map_eq_none_iff, action?, List.find?_eq_none, not_forall]
  exact ⟨a, ha, by simp⟩

/-- A refresh of one action, or of the children of one when there are no edges, selects no other. -/
theorem refreshChildren_selects (hedges : b.edges = []) (keys : List String) (key : String) :
    (b.edges.any fun e ↦ e.1 = key && e.2 ∈ keys) = false := by
  rw [hedges]
  rfl

end BatchRow

open BatchRow in
/-- Assumes: a run batch without edges, and no action of it reported missing. The end of one attempt spares
the other actions, unless it misses an input after its last attempt. -/
theorem Ending.spared {settings : Settings} {b b' : BatchRow} {lease : LeaseRow}
    {reported : Option Result} {marks : List Mark}
    (hends : Ending settings b lease reported marks b') (hrun : b.isRun) (hedges : b.edges = [])
    (hmissing : ∀ result, reported = some result → b.rebuilt result.missing = none) :
    b'.edges = [] ∧ Spared (∃ result a, reported = some result ∧ result.failure = some .inputMissing ∧
      Attempt b lease a ∧ settings.maxAttempts ≤ a.attempts) (·.inputKey ≠ lease.inputKey)
      b.actions b'.actions := by
  cases hends with
  | finish hattempt hf =>
    refine ⟨by rw [BatchRow.finish, finishIfDone_edges]; exact hedges, ?_⟩
    rw [BatchRow.finish, finishIfDone_actions]
    refine spared_of_touched (evolve_setState_refresh (b := b.deleteLease lease.attemptToken)
      lease.inputKey hf.inputKey .done _) fun a a' _ ha ↦ ha.2 ?_
    exact refreshChildren_selects hedges _ _
  | retry hattempt hf | raise hattempt hf | unavailable hattempt hf =>
    refine ⟨hedges, ?_⟩
    refine spared_of_touched (evolve_setState_refresh (b := b.deleteLease lease.attemptToken)
      lease.inputKey hf.inputKey .waiting _) fun a a' hkey ha ↦ ha.2 ?_
    simpa using hkey
  | block hattempt hf hattempts hparent hadded hreported =>
    obtain ⟨result, hresult, hparent'⟩ := hreported
    have hnone := hmissing result hresult
    rw [hparent'] at hnone
    exact absurd hnone (rebuilt_ne_none hparent)
  | failRun hattempt hf hclass =>
    refine ⟨by rw [finishIfDone_edges]; exact hedges, ?_⟩
    rw [finishIfDone_actions]
    exact spared_of_touched (evolve_setState (b := b.deleteLease lease.attemptToken) lease.inputKey
      hf.inputKey .failed) fun _ _ _ ha ↦ ha
  | failBuild failure hattempt hf hclass =>
    rw [class_of_isRun hrun hattempt.action_mem] at hclass
    cases hclass
  | @resubmit a₀ f text hattempt hf hattempts hreported =>
    refine ⟨hedges, fun a ha hother ↦ ?_⟩
    obtain ⟨result, hresult, hfailure⟩ := hreported
    obtain ⟨a', ha', htouched⟩ := (evolve_failBatch (b := b.deleteLease lease.attemptToken)
      lease.inputKey hf.inputKey ("resubmit: " ++ text)).exists_after ha
    have hrest := (touched_iff.mp htouched).2 hother
    split at hrest
    · rename_i hunfinished
      exact Or.inr ⟨⟨result, a₀, hresult, hfailure, hattempt, hattempts⟩, hunfinished, hrest ▸ ha'⟩
    · exact Or.inl (hrest ▸ ha')

/-! ### One step -/

/-- Run batches have no edges, and what was read to be released of them waits for no parent. -/
structure State.Independent (s : State) : Prop where
  edges_eq : ∀ b ∈ s.db.batches, b.isRun → b.edges = []
  candidates_issued : ∀ c ∈ s.releasable, c.batchId ∈ s.issued
  parents_eq : ∀ c ∈ s.releasable, ∀ b ∈ s.db.batches, b.id = c.batchId → b.isRun → c.parents = []

section Steps

variable {settings : Settings} {s s' : State} {e : Event} {b b' : BatchRow}

/-- Assumes: a step that modifies one batch and leaves its id alone. What a batch is after it. -/
theorem State.Sound.eq_modified (hsound : s'.Sound) {id : Uuid} {f : BatchRow → BatchRow}
    (hbatches : s'.db.batches = (s.db.modify id f).batches) (hb : b ∈ s.db.batches)
    (hb' : b' ∈ s'.db.batches) (hid : b'.id = b.id) (hf : b.id = id → (f b).id = b.id) :
    b' = if b.id = id then f b else b := by
  refine hsound.eq_of_id_eq hb' ?_ ?_
  · rw [hbatches]
    exact List.mem_map.mpr ⟨b, hb, rfl⟩
  · split
    · rename_i hmodified
      exact hid.trans (hf hmodified).symm
    · exact hid

/-- The end of a batch spares the actions that ended before. -/
theorem spared_endBatch {ended : Prop} {others : ActionRow → Prop} (hended : ended)
    (state : BatchState) (failure : Option String) :
    Spared ended others b.actions (b.endBatch state failure).actions := by
  intro a ha _
  obtain ⟨a', ha', hend⟩ := (BatchRow.evolve_endBatch b state failure).exists_after ha
  split at hend
  · rename_i hunfinished
    exact Or.inr ⟨hended, hunfinished, hend ▸ ha'⟩
  · exact Or.inl (hend ▸ ha')

/-- Assumes: an independent event. A step leaves the actions of a run batch that it is not about alone,
unless it ends the batch. -/
theorem others_of_step (hsound : s.Sound) (hleased : ∀ b ∈ s.db.batches, b.Leased)
    (hindependent : s.Independent) (hevent : independentEvent s e)
    (hstep : step settings s e = some s') (hb : b ∈ s.db.batches) (hrun : b.isRun)
    (hb' : b' ∈ s'.db.batches) (hid : b'.id = b.id) :
    b'.edges = [] ∧ Spared (e.stops settings b) (fun a ↦ ¬ e.concerns settings s b a.inputKey)
      b.actions b'.actions := by
  have hsound' := sound_step hsound (fun b hb ↦ (hleased b hb).leasesRun) hstep
  have hedges := hindependent.edges_eq b hb hrun
  have hsame : b' = b → b'.edges = [] ∧ Spared (e.stops settings b)
      (fun a ↦ ¬ e.concerns settings s b a.inputKey) b.actions b'.actions := by
    rintro rfl
    exact ⟨hedges, Spared.refl _⟩
  cases e with
  | tick | readExpired | readReleasable | readOverdue | deleteHints =>
    obtain rfl := Option.some.inj hstep
    exact hsame (hsound'.eq_of_id_eq hb' hb hid)
  | submit id batch profile actionClass =>
    simp only [step, Db.submit] at hstep
    split_ifs at hstep with hissued
    cases hbatch : Db.submittedBatch s.now id batch profile actionClass
        (s.db.highTheories settings batch profile) with
    | error error => simp [hbatch, Except.map] at hstep
    | ok b₀ =>
      simp only [hbatch, Except.map, Option.some.injEq] at hstep
      subst hstep
      exact hsame (hsound'.eq_of_id_eq hb' (List.mem_append_left _ hb) hid)
  | claim started tiers worker token locked =>
    simp only [step] at hstep
    split_ifs at hstep with hissued
    cases hrow : s.db.claimRow settings tiers locked with
    | none =>
      simp only [hrow, Option.some.injEq] at hstep
      subst hstep
      exact hsame (hsound'.eq_of_id_eq hb' hb hid)
    | some row =>
      obtain ⟨b₀, a₀⟩ := row
      simp only [hrow, Option.some.injEq] at hstep
      subst hstep
      have heq := hsound'.eq_modified rfl hb hb' hid fun _ ↦ rfl
      split at heq
      · rename_i hclaimed
        subst heq
        refine ⟨hedges, fun a ha hother ↦ Or.inl ?_⟩
        have hne : a.inputKey ≠ a₀.inputKey := fun hkey ↦ hother ⟨b₀, a₀, hrow, hclaimed.symm, hkey.symm⟩
        exact List.mem_map.mpr ⟨a, ha, if_neg hne⟩
      · exact hsame heq
  | heartbeat token =>
    simp only [step] at hstep
    split at hstep
    · obtain rfl := Option.some.inj hstep
      exact hsame (hsound'.eq_of_id_eq hb' hb hid)
    · obtain rfl := Option.some.inj hstep
      have heq := hsound'.eq_modified rfl hb hb' hid fun _ ↦ rfl
      split at heq
      · subst heq
        exact ⟨hedges, Spared.refl _⟩
      · exact hsame heq
  | complete token result =>
    simp only [step] at hstep
    cases hfound : s.db.leased? token with
    | none =>
      simp only [hfound, Option.some.injEq] at hstep
      subst hstep
      exact hsame (hsound'.eq_of_id_eq hb' hb hid)
    | some b₀ =>
      simp only [hfound] at hstep
      split at hstep
      · obtain rfl := Option.some.inj hstep
        exact hsame (hsound'.eq_of_id_eq hb' hb hid)
      · obtain rfl := Option.some.inj hstep
        exact hsame (hsound'.eq_of_id_eq hb' hb hid)
      · rename_i b'' peak hcomplete
        obtain rfl := Option.some.inj hstep
        obtain ⟨lease, hlive, hends⟩ := BatchRow.ending_complete hcomplete
        have hbatches : (peak.elim (s.db.modify b₀.id fun _ ↦ b'') fun peak ↦
            (s.db.modify b₀.id fun _ ↦ b'').storePeak s.now b₀.profile peak).batches =
              (s.db.modify b₀.id fun _ ↦ b'').batches := by
          cases peak <;> rfl
        have hsameBatch : b.id = b₀.id → b = b₀ := fun h ↦
          hsound.eq_of_id_eq hb (leased?_eq_some hfound) h
        have heq := hsound'.eq_modified hbatches hb hb' hid fun h ↦
          (Change.ends hends).id.trans (hsameBatch h ▸ rfl)
        split at heq
        · rename_i hcompleted
          obtain rfl := hsameBatch hcompleted
          have htoken : lease.attemptToken = token := by
            have hfind := List.find?_some hlive
            exact (of_decide_eq_true hfind).1
          have hmissing : b.rebuilt result.missing = none := by
            simpa [independentEvent, hfound, hrun] using hevent
          obtain ⟨hedges', hspared⟩ := hends.spared hrun hedges fun result' hresult ↦
            Option.some.inj hresult ▸ hmissing
          rw [heq]
          refine ⟨hedges', fun a ha hother ↦ (hspared a ha fun hkey ↦ hother ?_).imp_right ?_⟩
          · exact ⟨lease, List.mem_of_find?_eq_some hlive, htoken, hkey.symm⟩
          · rintro ⟨⟨result', a₀, hresult, hfailure, hattempt, hattempts⟩, hcancelled⟩
            obtain rfl := Option.some.inj hresult
            exact ⟨⟨hfailure, lease, a₀, hattempt, htoken, hattempts⟩, hcancelled⟩
        · exact hsame heq
  | expireLease token id =>
    simp only [step] at hstep
    split_ifs at hstep
    obtain rfl := Option.some.inj hstep
    have hends : b.expireLease settings s.now token = b ∨
        ∃ lease ∈ b.leases, lease.attemptToken = token ∧
          Ending settings b lease none [] (b.expireLease settings s.now token) :=
      BatchRow.ending_expireLease (hleased b hb).leasesRun s.now token
    have heq := hsound'.eq_modified rfl hb hb' hid fun _ ↦ ?_
    · split at heq
      · rcases hends with hunchanged | ⟨lease, hlease, htoken, hends⟩
        · exact hsame (heq.trans hunchanged)
        · obtain ⟨hedges', hspared⟩ := hends.spared hrun hedges fun _ hresult ↦ by cases hresult
          rw [heq]
          refine ⟨hedges', fun a ha hother ↦ (hspared a ha fun hkey ↦ hother ?_).imp_right ?_⟩
          · exact ⟨lease, hlease, htoken, hkey.symm⟩
          · rintro ⟨⟨result, _, hresult, _⟩, _⟩
            cases hresult
      · exact hsame heq
    · rcases hends with hunchanged | ⟨lease, hlease, htoken, hends⟩
      · rw [hunchanged]
      · exact (Change.ends hends).id
  | makeReady id candidates present =>
    simp only [step] at hstep
    split_ifs at hstep
    obtain rfl := Option.some.inj hstep
    have heq := hsound'.eq_modified rfl hb hb' hid fun _ ↦ by split <;> rfl
    split at heq
    · rename_i hreleased
      split at heq
      · rw [heq]
        refine ⟨hedges, fun a ha hother ↦ Or.inl (List.mem_map.mpr ⟨a, ha, if_neg fun hready ↦ ?_⟩)⟩
        refine hother ⟨hreleased.symm, ?_⟩
        obtain ⟨c, hc, hkey⟩ := List.mem_map.mp hready.1
        exact hkey ▸ List.mem_map_of_mem (List.mem_filter.mp hc).1
      · exact hsame heq
    · exact hsame heq
  | requeueEvicted id parent =>
    simp only [step] at hstep
    split_ifs at hstep with hread
    obtain rfl := Option.some.inj hstep
    obtain ⟨c, hc, rfl, hparent⟩ := hread
    have hne : b.id ≠ c.batchId := by
      intro hbatch
      rw [hindependent.parents_eq c hc b hb hbatch hrun] at hparent
      cases hparent
    have heq := hsound'.eq_modified rfl hb hb' hid fun h ↦ absurd h hne
    rw [if_neg hne] at heq
    exact hsame heq
  | cancel id =>
    obtain rfl := Option.some.inj hstep
    have heq := hsound'.eq_modified rfl hb hb' hid fun _ ↦ by unfold BatchRow.cancel; split <;> rfl
    split at heq
    · rename_i hcancelled
      unfold BatchRow.cancel at heq
      split at heq
      · rw [heq]
        exact ⟨hedges, spared_endBatch hcancelled.symm _ _⟩
      · exact hsame heq
    · exact hsame heq
  | failOverdue id =>
    simp only [step] at hstep
    split_ifs at hstep
    obtain rfl := Option.some.inj hstep
    have heq := hsound'.eq_modified rfl hb hb' hid fun _ ↦ by
      unfold BatchRow.failOverdue; split <;> rfl
    split at heq
    · rename_i hoverdue
      unfold BatchRow.failOverdue at heq
      split at heq
      · rw [heq]
        exact ⟨hedges, spared_endBatch hoverdue.symm _ _⟩
      · exact hsame heq
    · exact hsame heq
  | deleteExpired ids =>
    simp only [step] at hstep
    split_ifs at hstep
    obtain rfl := Option.some.inj hstep
    exact hsame (hsound.eq_of_id_eq (List.mem_filter.mp hb').1 hb hid)

/-- Assumes: distinct ids, and leases of running actions. A batch after a step was one before it, of runs
or not, or the step submits it. -/
theorem exists_before_step (hsound : s.Sound) (hleased : ∀ b ∈ s.db.batches, b.Leased)
    (hstep : step settings s e = some s') (hb' : b' ∈ s'.db.batches) :
    (∃ b ∈ s.db.batches, b'.id = b.id ∧ b'.isRun = b.isRun) ∨ Submits s e b' := by
  rcases exists_becomes hsound (fun b hb ↦ (hleased b hb).leasesRun) hstep hb' with
    ⟨b, hb, ⟨rfl, -⟩ | hchange⟩ | hsubmits
  · exact Or.inl ⟨b', hb, rfl, rfl⟩
  · exact Or.inl ⟨b, hb, hchange.id, BatchRow.isRun_of_submitted hchange.submitted⟩
  · exact Or.inr hsubmits

/-- What is read to be released after a step was read before it, or is of the database. -/
theorem mem_releasable_of_step (hstep : step settings s e = some s') {c : Db.Candidate}
    (hc : c ∈ s'.releasable) : c ∈ s.releasable ∨ ∃ b ∈ s.db.batches, b.id = c.batchId ∧
      (b.edges = [] → c.parents = []) := by
  have hread : ∀ batchId, c ∈ s.db.releasable batchId → ∃ b ∈ s.db.batches, b.id = c.batchId ∧
      (b.edges = [] → c.parents = []) := by
    intro batchId hmem
    obtain ⟨b, hb, hmem⟩ := List.mem_flatMap.mp hmem
    obtain ⟨a, -, rfl⟩ := List.mem_map.mp hmem
    exact ⟨b, (List.mem_filter.mp hb).1, rfl, fun hedges ↦ by simp [hedges]⟩
  cases e with
  | readReleasable batchId =>
    obtain rfl := Option.some.inj hstep
    exact (List.mem_append.mp hc).imp_right (hread batchId)
  | submit | claim =>
    simp only [step] at hstep
    split_ifs at hstep
    split at hstep
    all_goals cases hstep
    all_goals exact Or.inl hc
  | heartbeat | complete =>
    simp only [step] at hstep
    split at hstep
    all_goals try split at hstep
    all_goals cases hstep
    all_goals exact Or.inl hc
  | expireLease | makeReady | requeueEvicted | failOverdue | deleteExpired =>
    simp only [step] at hstep
    split_ifs at hstep
    cases hstep
    exact Or.inl hc
  | _ =>
    cases hstep
    exact Or.inl hc

/-- A run batch that the API admits has no edges. -/
theorem edges_eq_of_submits (hevent : independentEvent s e) (hsubmits : Submits s e b')
    (hrun : b'.isRun) : b'.edges = [] := by
  obtain ⟨id, batch, profile, actionClass, high, rfl, -, hnew⟩ := hsubmits
  have hfresh := fresh_of_submittedBatch hnew
  rw [hfresh.edges_eq]
  simp only [independentEvent, Bool.or_eq_true, decide_eq_true_eq] at hevent
  refine hevent.elim (fun hbuild ↦ ?_) fun h ↦ h
  have hkeys : b'.keys = [] := by
    refine List.map_eq_nil_iff.mpr (List.eq_nil_iff_forall_not_mem.mpr fun a ha ↦ ?_)
    have hclass := BatchRow.class_of_isRun hrun ha
    rw [hfresh.class_eq a ha, hbuild] at hclass
    cases hclass
  refine List.eq_nil_iff_forall_not_mem.mpr fun edge hedge ↦ ?_
  have hmem := (batch.edges_mem edge hedge).1
  rw [← hfresh.keys_eq, hkeys] at hmem
  cases hmem

/-- An independent event keeps the state independent. -/
theorem State.Independent.of_step (hsound : s.Sound) (hleased : ∀ b ∈ s.db.batches, b.Leased)
    (hindependent : s.Independent) (hevent : independentEvent s e)
    (hstep : step settings s e = some s') : s'.Independent := by
  refine ⟨fun b' hb' hrun ↦ ?_, fun c hc ↦ ?_, fun c hc b' hb' hid hrun ↦ ?_⟩
  · rcases exists_before_step hsound hleased hstep hb' with ⟨b, hb, hid, hsame⟩ | hsubmits
    · exact (others_of_step hsound hleased hindependent hevent hstep hb (hsame ▸ hrun) hb' hid).1
    · exact edges_eq_of_submits hevent hsubmits hrun
  · refine issued_subset hstep ?_
    rcases mem_releasable_of_step hstep hc with hc | ⟨b, hb, hid, -⟩
    · exact hindependent.candidates_issued c hc
    · exact hid ▸ hsound.ids_issued b hb
  · rcases exists_before_step hsound hleased hstep hb' with ⟨b, hb, hsameId, hsame⟩ | hsubmits
    · rcases mem_releasable_of_step hstep hc with hc | ⟨b₀, hb₀, hread, hparents⟩
      · exact hindependent.parents_eq c hc b hb (hsameId ▸ hid) (hsame ▸ hrun)
      · obtain rfl := hsound.eq_of_id_eq hb hb₀ (hsameId.symm.trans (hid.trans hread.symm))
        exact hparents (hindependent.edges_eq b hb (hsame ▸ hrun))
    · have hissued : c.batchId ∈ s.issued := by
        rcases mem_releasable_of_step hstep hc with hc | ⟨b₀, hb₀, hread, -⟩
        · exact hindependent.candidates_issued c hc
        · exact hread ▸ hsound.ids_issued b₀ hb₀
      obtain ⟨id, batch, profile, actionClass, high, -, hnew, hbatch⟩ := hsubmits
      rw [← hid, (fresh_of_submittedBatch hbatch).id_eq] at hissued
      exact absurd hissued hnew

end Steps

/-! ### The end of a run batch -/

/-- A run batch whose actions all ended is done, unless a missing input ended it. -/
def BatchRow.Closed (b : BatchRow) : Prop :=
  b.isRun → (∀ a ∈ b.actions, a.state = .done ∨ a.state = .failed) →
    b.state = .done ∨ b.state = .failed ∧ ∃ text, b.failure = some ("resubmit: " ++ text)

/-- A running batch has an action that did not end. -/
theorem BatchRow.Leased.not_ended {b : BatchRow} (hb : b.Leased) (hrunning : b.state = .running) :
    ¬ ∀ a ∈ b.actions, a.state = .done ∨ a.state = .failed := by
  intro hended
  obtain ⟨a, ha, hunfinished⟩ := hb.unfinished hrunning
  rcases hended a ha with hstate | hstate
  all_goals
    rw [hstate] at hunfinished
    cases hunfinished

open BatchRow in
/-- Every change keeps run batches closed. -/
theorem BatchRow.Closed.of_change {settings : Settings} {b b' : BatchRow} {marks : List Mark}
    (hleased : b.Leased) (hb : b.Closed) (hchange : Change settings b marks b') : b'.Closed := by
  intro hrun hended
  have hrun₀ : b.isRun := isRun_of_submitted hchange.submitted ▸ hrun
  have hstopped : b'.state ≠ .running := fun h ↦ (hleased.of_change hchange).not_ended h hended
  have hfinish : ∀ c : BatchRow, c.state = .running → c.finishIfDone.state ≠ .running →
      c.finishIfDone.state = .done := by
    intro c hrunning hne
    rw [finishIfDone_state] at hne ⊢
    split_ifs at hne ⊢
    · rfl
    · exact absurd hrunning hne
  cases hchange with
  | claim now token worker hrunning => exact absurd hrunning hstopped
  | heartbeat => exact hb hrun₀ hended
  | makeReady keys hrunning => exact absurd hrunning hstopped
  | requeue hrunning => exact absurd hrunning hstopped
  | evict text => exact Or.inr ⟨rfl, text, rfl⟩
  | stop failure hrunning =>
    obtain ⟨a, ha, hunfinished⟩ := hleased.unfinished hrunning
    obtain ⟨a', ha', hend⟩ := (evolve_endBatch b _ failure).exists_after ha
    rw [if_pos hunfinished] at hend
    have hstate := hended a' ha'
    rw [hend] at hstate
    exact hstate.elim (fun h ↦ by cases h) fun h ↦ by cases h
  | ends hends =>
    cases hends with
    | finish hattempt | failRun hattempt =>
      exact Or.inl (hfinish _ (hleased.running_of_lease hattempt.lease_mem) hstopped)
    | retry hattempt | raise hattempt | unavailable hattempt =>
      exact absurd (hleased.running_of_lease hattempt.lease_mem) hstopped
    | block hattempt hf hattempts hparent hadded =>
      refine absurd ?_ hstopped
      exact (addEdge_frame hadded).2.1.trans (hleased.running_of_lease hattempt.lease_mem)
    | failBuild failure hattempt hf hclass =>
      rw [class_of_isRun hrun₀ hattempt.action_mem] at hclass
      cases hclass
    | resubmit text => exact Or.inr ⟨rfl, text, rfl⟩

/-- In every reachable state run batches are closed. -/
theorem closed {settings : Settings} {s : State} (hs : (coordinator settings).Reachable s) :
    ∀ b ∈ s.db.batches, b.Closed := by
  refine invariant_of_leased (fun id batch actionClass b hfresh _ hended ↦ ?_)
    (fun _ _ _ hleased hb hchange ↦ hb.of_change hleased hchange) hs
  have hstopped : b.state ≠ .running := fun h ↦ hfresh.leased.not_ended h hended
  have hstate := hfresh.state_eq
  split at hstate
  · exact Or.inl hstate
  · exact absurd hstate hstopped

section Reachable

variable {settings : Settings} {s : State}

/-- In every state that independent events lead to, run batches are independent. -/
theorem independent (hs : (independentRuns settings).Reachable s) : s.Independent := by
  refine hs.invariant ⟨by simp [independentRuns, Machine.guard, coordinator],
    by simp [independentRuns, Machine.guard, coordinator],
    by simp [independentRuns, Machine.guard, coordinator]⟩ fun s e s' hreachable hindependent hnext ↦ ?_
  obtain ⟨hevent, hstep⟩ := Machine.guard_step.mp hnext
  obtain ⟨hsound, hleased⟩ := leased hreachable.of_guard
  exact hindependent.of_step hsound hleased hevent hstep

/-- Assumes: a waiting or ready action of a running run batch. A release makes it ready if it waits, whatever
the cache answers. -/
theorem exists_candidates (hs : (independentRuns settings).Reachable s) {b : BatchRow}
    (hb : b ∈ s.db.batches) (hrun : b.isRun) (hrunning : b.state = .running) {a : ActionRow}
    (ha : a ∈ b.actions) (hqueued : a.state.queued) (present : String → Option Bool) :
    ∃ candidates, (∀ c ∈ candidates, c ∈ s.db.releasable (some b.id) ∧ c.batchId = b.id) ∧
      { a with state := .ready } ∈ (b.makeReady (presentKeys present candidates)).actions := by
  have hedges := (independent hs).edges_eq b hb hrun
  cases hstate : a.state with
  | ready =>
    refine ⟨[], by simp, List.mem_map.mpr ⟨a, ha, ?_⟩⟩
    rw [if_neg (by simp [presentKeys]), ← hstate]
  | waiting =>
    have hzero : a.remainingDeps = 0 := by
      obtain ⟨hcount, -⟩ := countsOk hs.of_guard b hb a ha hqueued fun h ↦ h
      rw [hcount, BatchRow.remaining, hedges]
      rfl
    refine ⟨[⟨b.id, a.inputKey, []⟩], fun c hc ↦ ?_, List.mem_map.mpr ⟨a, ha, if_pos ?_⟩⟩
    · rw [List.mem_singleton.mp hc]
      refine ⟨List.mem_flatMap.mpr ⟨b, List.mem_filter.mpr ⟨hb, by simp [hrunning]⟩, ?_⟩, rfl⟩
      refine List.mem_map.mpr ⟨a, List.mem_filter.mpr ⟨ha, by simp [hstate, hzero]⟩, ?_⟩
      simp [hedges]
    · exact ⟨List.mem_singleton_self _, hstate, hzero⟩
  | running | done | failed | cancelled =>
    rw [hstate] at hqueued
    cases hqueued

/-- Assumes: a slot, and a token not drawn before. A waiting or ready action of a running run batch can be
claimed after a release, whatever the cache answers. -/
theorem exists_claim (hs : (independentRuns settings).Reachable s) {b : BatchRow}
    (hb : b ∈ s.db.batches) (hrun : b.isRun) (hrunning : b.state = .running) {a : ActionRow}
    (ha : a ∈ b.actions) (hqueued : a.state.queued) (hslots : s.db.runningRuns < settings.runSlots)
    {token : Uuid} (htoken : token ∉ s.issued) (present : String → Option Bool) :
    ∃ candidates locked s', (independentRuns settings).run s [.readReleasable (some b.id),
        .makeReady b.id candidates present, .claim s.now [a.tier] "worker" token locked] = some s' ∧
      ∃ b' ∈ s'.db.batches, b'.id = b.id ∧
        ∃ a' ∈ b'.actions, a'.inputKey = a.inputKey ∧ a'.state = .running := by
  obtain ⟨candidates, hcandidates, ha₂⟩ := exists_candidates hs hb hrun hrunning ha hqueued present
  let s₁ : State := { s with releasable := s.releasable ++ s.db.releasable (some b.id) }
  let s₂ : State := { s₁ with db := s₁.db.modify b.id fun b ↦
    if b.state = .running then b.makeReady (presentKeys present candidates) else b }
  have hread : (independentRuns settings).step s (.readReleasable (some b.id)) = some s₁ :=
    Machine.guard_step.mpr ⟨rfl, rfl⟩
  have hrelease : (independentRuns settings).step s₁ (.makeReady b.id candidates present) = some s₂ :=
    Machine.guard_step.mpr ⟨rfl, if_pos fun c hc ↦
      ⟨List.mem_append_right _ (hcandidates c hc).1, (hcandidates c hc).2⟩⟩
  have hs₂ : (independentRuns settings).Reachable s₂ := (hs.step _ hread).step _ hrelease
  obtain ⟨hsound, hleased⟩ := leased hs₂.of_guard
  have hb₂ : b.makeReady (presentKeys present candidates) ∈ s₂.db.batches :=
    List.mem_map.mpr ⟨b, hb, by simp only [if_true, hrunning]⟩
  have hle : ∀ {s e s'}, (independentRuns settings).Reachable s → (∀ started tiers worker token locked,
      e ≠ .claim started tiers worker token locked) → (independentRuns settings).step s e = some s' →
      s'.db.runningRuns ≤ s.db.runningRuns := by
    intro s e s' hreachable he hnext
    obtain ⟨hsound, hleased⟩ := leased hreachable.of_guard
    exact runningRuns_step hsound hleased (Machine.guard_step.mp hnext).2 (observe_of_ne_claim he)
  have hslots₂ : s₂.db.runningRuns < settings.runSlots := by
    have hfirst := hle hs (by simp) hread
    have hsecond := hle (hs.step _ hread) (by simp) hrelease
    omega
  have hclass : a.actionClass = .run := BatchRow.class_of_isRun hrun ha
  obtain ⟨locked, hrow⟩ := exists_claimRow hsound.ids_nodup hb₂ (hleased _ hb₂).keys_nodup hrunning ha₂
    rfl (List.mem_singleton_self a.tier) fun _ ↦ hslots₂
  have hfresh : ¬ (token ∈ s₂.issued ∨ s₂.now < s.now) := fun h ↦ h.elim htoken (lt_irrefl s.now)
  have hclaim : (independentRuns settings).step s₂ (.claim s.now [a.tier] "worker" token locked) =
      some { s₂ with
        db := s₂.db.modify b.id fun b ↦ b.claimAction settings s.now token "worker" a.inputKey
        issued := token :: s.issued } := by
    refine Machine.guard_step.mpr ⟨rfl, ?_⟩
    simp only [coordinator, step, if_neg hfresh, hrow]
    rfl
  refine ⟨candidates, locked, _,
    by simp only [Machine.run, hread, hrelease, hclaim, Option.bind_some]; rfl,
    (b.makeReady (presentKeys present candidates)).claimAction settings s.now token "worker" a.inputKey,
    ?_, rfl, _, List.mem_map.mpr ⟨_, ha₂, if_pos rfl⟩, rfl, rfl⟩
  refine List.mem_map.mpr ⟨_, hb₂, ?_⟩
  exact if_pos rfl

/-- Under the events of the API, and results that name no action of their own run batch as a missing
theory, a step leaves the row of every action of a run batch that it is not about alone, unless it is a
cancel, the deadline or a missing input after the last attempt, and cancels the action. A waiting or ready
action can be claimed when a slot is free, whatever the cache holds. A batch whose actions are all done or
failed is done, unless such a missing input ended it. -/
theorem run_independence (hs : (independentRuns settings).Reachable s) {b : BatchRow}
    (hb : b ∈ s.db.batches) (hrun : b.isRun) :
    (∀ e s', (independentRuns settings).step s e = some s' → ∀ b' ∈ s'.db.batches, b'.id = b.id →
      ∀ a ∈ b.actions, ¬ e.concerns settings s b a.inputKey → a ∈ b'.actions ∨
        e.stops settings b ∧ a.state.unfinished ∧ { a with state := .cancelled } ∈ b'.actions) ∧
    (b.state = .running → ∀ a ∈ b.actions, a.state.queued → s.db.runningRuns < settings.runSlots →
      ∀ token ∉ s.issued, ∀ present : String → Option Bool, ∃ candidates locked s',
        (independentRuns settings).run s [.readReleasable (some b.id),
          .makeReady b.id candidates present, .claim s.now [a.tier] "worker" token locked] = some s' ∧
        ∃ b' ∈ s'.db.batches, b'.id = b.id ∧
          ∃ a' ∈ b'.actions, a'.inputKey = a.inputKey ∧ a'.state = .running) ∧
    ((∀ a ∈ b.actions, a.state = .done ∨ a.state = .failed) →
      b.state = .done ∨ b.state = .failed ∧ ∃ text, b.failure = some ("resubmit: " ++ text)) := by
  obtain ⟨hsound, hleased⟩ := leased hs.of_guard
  refine ⟨fun e s' hnext b' hb' hid ↦ ?_, fun hrunning a ha hqueued hslots token htoken present ↦ ?_,
    closed hs.of_guard b hb hrun⟩
  · obtain ⟨hevent, hstep⟩ := Machine.guard_step.mp hnext
    exact (others_of_step hsound hleased (independent hs) hevent hstep hb hrun hb' hid).2
  · exact exists_claim hs hb hrun hrunning ha hqueued hslots htoken present

end Reachable

/-! ### Runs of two run actions -/

/-- The batch is submitted, both runs are made ready, and the first is claimed. -/
def claimedRuns : List Event :=
  [.submit 0 sampleRuns "default" .run, .readReleasable none,
    .makeReady 0 [⟨0, "a", []⟩, ⟨0, "b", []⟩] fun _ ↦ none, .claim 0 [.standard] "worker" 1 []]

theorem claimedRuns_isSome :
    ((independentRuns {}).run (independentRuns {}).initial claimedRuns).isSome := by
  decide

/-- The state after them. -/
def claimedRunsState : State :=
  ((independentRuns {}).run (independentRuns {}).initial claimedRuns).get claimedRuns_isSome

theorem run_independence_claimedRunsState :
    (∃ b ∈ claimedRunsState.db.batches, ∃ a ∈ b.actions, a.state.queued) ∧
    ∀ b ∈ claimedRunsState.db.batches, ∀ a ∈ b.actions, a.state.queued → ∃ candidates locked s', (independentRuns {}).run claimedRunsState
        [.readReleasable (some b.id), .makeReady b.id candidates fun _ ↦ none,
          .claim claimedRunsState.now [a.tier] "worker" 2 locked] = some s' ∧
      ∃ b' ∈ s'.db.batches, b'.id = b.id ∧
        ∃ a' ∈ b'.actions, a'.inputKey = a.inputKey ∧ a'.state = .running := by
  have hreachable : (independentRuns {}).Reachable claimedRunsState :=
    Machine.reachable_of_run claimedRuns_isSome
  have hruns : ∀ b ∈ claimedRunsState.db.batches, b.isRun := by decide
  have hrunning : ∀ b ∈ claimedRunsState.db.batches, b.state = .running := by decide
  refine ⟨by decide, fun b hb a ha hqueued ↦ ?_⟩
  exact (run_independence hreachable hb (hruns b hb)).2.1 (hrunning b hb) a ha hqueued (by decide) 2
    (by decide) fun _ ↦ none

/-- The states of the actions of each batch after events of the coordinator. -/
def statesAfter (settings : Settings) (events : List Event) : Option (List (List ActionState)) :=
  ((coordinator settings).run (coordinator settings).initial events).map fun s ↦
    s.db.batches.map fun b ↦ b.actions.map (·.state)

/-- The result of a run that misses an input. -/
def missingResult (spec key : String) : Result where
  specSha256 := spec
  inputKey := none
  status := .failed
  failure := some .inputMissing
  missing := some ⟨.theory, key⟩
  peakRssMb := none
  logSha256 := none
  failure_isSome_iff := by simp

/-- The result of a run that ended well. -/
def builtResult (spec : String) : Result where
  specSha256 := spec
  inputKey := none
  status := .built
  failure := none
  missing := none
  peakRssMb := none
  logSha256 := none
  failure_isSome_iff := by simp

/-- A run that misses an input after its last attempt cancels the other, and one that reports the other
missing sends it back to waiting after it was done. -/
theorem failed_run_changes_other :
    statesAfter { maxAttempts := 1 } claimedRuns = some [[.running, .ready]] ∧
    statesAfter { maxAttempts := 1 } (claimedRuns ++ [.complete 1 (missingResult "spec-a" "c")]) =
      some [[.failed, .cancelled]] ∧
    statesAfter {} (claimedRuns ++ [.complete 1 (builtResult "spec-a"),
      .claim 0 [.standard] "worker" 2 []]) = some [[.done, .running]] ∧
    statesAfter {} (claimedRuns ++ [.complete 1 (builtResult "spec-a"),
      .claim 0 [.standard] "worker" 2 [], .complete 2 (missingResult "spec-b" "a")]) =
      some [[.waiting, .waiting]] := by
  refine ⟨?_, ?_, ?_, ?_⟩ <;> decide +kernel

end Holbuild.RemoteExec
