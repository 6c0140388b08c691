import Holbuild.RemoteExec.Dependencies

/-!
# A running build batch can go on

While a build batch is running, one of its actions is running, is ready, or waits for nothing but the
cache (`build_progress`). The argument is on the dependency graph: among the unfinished actions of the
batch one has no unfinished parent, because the edges, those added at run time included, form no cycle;
its parents are done, because in a running build batch an action that ended was built
(`BatchRow.Unfailed`); so its count is zero.
-/

set_option autoImplicit false
set_option relaxedAutoImplicit false

namespace Holbuild.RemoteExec

open Library

/-- A running batch has no build that failed. -/
def BatchRow.Unfailed (b : BatchRow) : Prop :=
  b.state = .running → ∀ a ∈ b.actions, a.actionClass = .build → a.state ≠ .failed

/-- A row keeps its class and does not fail. -/
def Spares (a a' : ActionRow) : Prop :=
  a'.actionClass = a.actionClass ∧ (a'.state = .failed → a.state = .failed)

theorem Kept.spares {a a' : ActionRow} (ha : Kept a a') : Spares a a' := by
  refine ⟨?_, (ha.state_eq_iff rfl).mp⟩
  obtain ⟨n, s, depth, count, -, rfl⟩ := ha
  rfl

theorem spares_of_requeued {a a' : ActionRow}
    (ha : Kept (if a.state = .done then { a with state := .waiting } else a) a') : Spares a a' := by
  split at ha
  · obtain ⟨hclass, hfailed⟩ := ha.spares
    exact ⟨hclass, fun h ↦ by cases hfailed h⟩
  · exact ha.spares

namespace BatchRow

variable {b b' : BatchRow}

/-- Assumes: rows that keep their classes and do not fail. -/
theorem Unfailed.of_evolve (hb : b.Unfailed) (hrunning : b.state = .running)
    (hrows : Evolve Spares b.actions b'.actions) : b'.Unfailed := by
  intro _ a' ha' hclass hfailed
  obtain ⟨a, ha, hspares⟩ := hrows.exists_before ha'
  exact hb hrunning a ha (hspares.1 ▸ hclass) (hspares.2 hfailed)

/-- Assumes: a report before a state that is not a failure, and a refresh. -/
theorem spares_refresh {lease : LeaseRow} {f : ActionRow → ActionRow} {tier : Option Tier} {back : ℤ}
    (hf : Records f tier back) {state : ActionState} (hstate : state ≠ .failed)
    (selected : String → Bool) :
    Evolve Spares b.actions
      (((b.reported lease f).setState lease.inputKey state).refresh selected).actions := by
  have hrows := evolve_setState_refresh (b := b.deleteLease lease.attemptToken) lease.inputKey
    hf.inputKey state selected
  refine hrows.imp fun a a' htouched ↦ ?_
  rw [touched_iff] at htouched
  by_cases hkey : a.inputKey = lease.inputKey
  · obtain ⟨hclass, hfailed⟩ := (htouched.1 hkey).kept.spares
    obtain ⟨log, failure, heq⟩ := hf a
    refine ⟨by rw [hclass, heq], fun h ↦ absurd (hfailed h) hstate⟩
  · exact (htouched.2 hkey).1.kept.spares

/-- Every change leaves a running batch without failed builds. -/
theorem Unfailed.of_change (hleased : b.Leased) (hb : b.Unfailed) {settings : Settings}
    {marks : List Mark} (hchange : Change settings b marks b') : b'.Unfailed := by
  cases hchange with
  | @claim a now token worker hrunning ha hready htoken =>
    refine hb.of_evolve hrunning ((evolve_updateAction b a.inputKey _).imp fun c c' htouched ↦ ?_)
    rw [touched_iff] at htouched
    by_cases hkey : c.inputKey = a.inputKey
    · rw [htouched.1 hkey]
      exact ⟨rfl, fun h ↦ by cases h⟩
    · rw [htouched.2 hkey]
      exact ⟨rfl, fun h ↦ h⟩
  | heartbeat now token => exact hb
  | makeReady keys hrunning =>
    refine hb.of_evolve hrunning ((evolve_makeReady b keys).imp ?_)
    rintro a a' (rfl | ⟨-, -, rfl⟩)
    · exact ⟨rfl, fun h ↦ h⟩
    · exact ⟨rfl, fun h ↦ by cases h⟩
  | @requeue parent hrunning hparent hdone hattempts =>
    refine hb.of_evolve hrunning ((evolve_requeue b _).imp fun a a' htouched ↦ ?_)
    rw [touched_iff] at htouched
    by_cases hkey : a.inputKey = parent.inputKey
    · exact spares_of_requeued (htouched.1 hkey).kept
    · exact (htouched.2 hkey).kept.spares
  | evict => exact fun h ↦ by cases h
  | stop failure hrunning hstate => exact fun h ↦ absurd h hstate
  | @ends lease _ _ _ hends =>
    cases hends with
    | failBuild | resubmit => exact fun h ↦ by cases h
    | finish hattempt hf =>
      refine hb.of_evolve (hleased.running_of_lease hattempt.lease_mem) ?_
      unfold BatchRow.finish
      rw [finishIfDone_actions]
      exact spares_refresh hf (by simp) _
    | retry hattempt hf | raise hattempt hf | unavailable hattempt hf =>
      exact hb.of_evolve (hleased.running_of_lease hattempt.lease_mem) (spares_refresh hf (by simp) _)
    | @block a f parent added hattempt hf hattempts hparent hadded =>
      refine hb.of_evolve (hleased.running_of_lease hattempt.lease_mem)
        ((evolve_block (b := b.deleteLease lease.attemptToken) hf.inputKey hadded).imp
          fun c c' htouched ↦ ?_)
      rw [touched_iff] at htouched
      by_cases hkey : c.inputKey = lease.inputKey
      · obtain ⟨hclass, hfailed⟩ := (htouched.1 hkey).1.spares
        obtain ⟨log, failure, heq⟩ := hf c
        exact ⟨by rw [hclass, heq], fun h ↦ by cases hfailed h⟩
      · have hother := htouched.2 hkey
        rw [touched_iff] at hother
        by_cases hkey' : c.inputKey = parent
        · exact spares_of_requeued (hother.1 hkey')
        · exact (hother.2 hkey').spares
    | @failRun a f hattempt hf hclass =>
      intro _ c' hc' hbuild hfailed
      rw [finishIfDone_actions] at hc'
      obtain ⟨c, hc, htouched⟩ := (evolve_setState (b := b.deleteLease lease.attemptToken)
        lease.inputKey hf.inputKey .failed).exists_before hc'
      rw [touched_iff] at htouched
      by_cases hkey : c.inputKey = lease.inputKey
      · have hsame : c = a := eq_of_key_eq hleased.keys_nodup hc hattempt.action_mem
          (hkey.trans hattempt.inputKey_eq.symm)
        obtain ⟨log, failure, heq⟩ := hf c
        rw [htouched.1 hkey, heq] at hbuild
        rw [hsame, hclass] at hbuild
        cases hbuild
      · rw [htouched.2 hkey] at hbuild hfailed
        exact hb (hleased.running_of_lease hattempt.lease_mem) c hc hbuild hfailed

end BatchRow

section Reachable

variable {settings : Settings} {s : State}

/-- In every reachable state a running batch has no build that failed. -/
theorem unfailed (hs : (coordinator settings).Reachable s) : ∀ b ∈ s.db.batches, b.Unfailed :=
  invariant_of_leased (fun _ _ _ b hfresh _ a ha _ ↦ by rw [hfresh.waiting a ha]; simp)
    (fun _ _ _ hleased hb hchange ↦ hb.of_change hleased hchange) hs

/-- A running build batch has an unfinished action whose parents are all done. -/
theorem exists_unblocked (hs : (coordinator settings).Reachable s) {b : BatchRow}
    (hb : b ∈ s.db.batches) (hrunning : b.state = .running)
    (hbuild : ∀ a ∈ b.actions, a.actionClass = .build) :
    ∃ a ∈ b.actions, a.state.unfinished ∧ ∀ parent, (a.inputKey, parent) ∈ b.edges →
      ∃ p ∈ b.actions, p.inputKey = parent ∧ p.state = .done := by
  obtain ⟨-, hleased⟩ := leased hs
  obtain ⟨c, hc, hunfinished⟩ := (hleased b hb).unfinished hrunning
  let unfinishedKeys : Set String := {key | ∃ a ∈ b.actions, a.inputKey = key ∧ a.state.unfinished}
  have hfinite : unfinishedKeys.Finite := by
    refine (b.keys.toFinset.finite_toSet).subset ?_
    rintro key ⟨a, ha, rfl, -⟩
    rw [Finset.mem_coe, List.mem_toFinset]
    exact List.mem_map_of_mem ha
  obtain ⟨key, ⟨a, ha, rfl, hstate⟩, hminimal⟩ := (wired hs b hb).acyclic.swap.exists_minimal hfinite
    ⟨c.inputKey, c, hc, rfl, hunfinished⟩
  refine ⟨a, ha, hstate, fun parent hedge ↦ ?_⟩
  obtain ⟨p, hp, rfl⟩ := List.mem_map.mp ((wired hs b hb).edges_mem _ hedge).2
  refine ⟨p, hp, rfl, ?_⟩
  have hended : p.state.unfinished = false := by
    by_contra hnot
    exact hminimal p.inputKey ⟨p, hp, rfl, by simpa using hnot⟩ hedge
  have hfailed := unfailed hs b hb hrunning p hp (hbuild p hp)
  have hcancelled := (hleased b hb).uncancelled hrunning p hp
  cases hp : p.state <;> simp_all [ActionState.unfinished]

/-- An action of a running batch that waits for no parent is made ready by a release, once the cache holds
its parents' entries. -/
theorem exists_release {b : BatchRow} (hb : b ∈ s.db.batches) (hrunning : b.state = .running)
    {a : ActionRow} (ha : a ∈ b.actions) (hwaiting : a.state = .waiting)
    (hzero : a.remainingDeps = 0) :
    ∃ candidates s₁ s₂, step settings s (.readReleasable (some b.id)) = some s₁ ∧
      step settings s₁ (.makeReady b.id candidates fun _ ↦ some true) = some s₂ ∧
      ∃ b' ∈ s₂.db.batches, b'.id = b.id ∧
        ∃ a' ∈ b'.actions, a'.inputKey = a.inputKey ∧ a'.state = .ready := by
  let candidate : Db.Candidate := ⟨b.id, a.inputKey, (b.edges.filter (·.1 = a.inputKey)).map fun e ↦
    (e.2, ((b.action? e.2).map (·.acKey)).getD "")⟩
  have hcandidate : candidate ∈ s.db.releasable (some b.id) := by
    refine List.mem_flatMap.mpr ⟨b, List.mem_filter.mpr ⟨hb, by simp [hrunning]⟩, ?_⟩
    exact List.mem_map.mpr ⟨a, List.mem_filter.mpr ⟨ha, by simp [hwaiting, hzero]⟩, rfl⟩
  have hread : ∀ c ∈ [candidate],
      c ∈ s.releasable ++ s.db.releasable (some b.id) ∧ c.batchId = b.id := by
    intro c hc
    rw [List.mem_singleton.mp hc]
    exact ⟨List.mem_append_right _ hcandidate, rfl⟩
  refine ⟨[candidate], _, _, rfl, if_pos hread, b.makeReady [a.inputKey], ?_, rfl,
    { a with state := .ready }, ?_, rfl, rfl⟩
  · refine List.mem_map.mpr ⟨b, hb, ?_⟩
    simp [hrunning, presentKeys, candidate]
  · exact List.mem_map.mpr ⟨a, ha, by simp [hwaiting, hzero]⟩

/-- In every reachable state a running build batch has an action that is running, ready, or waiting with
no dependency left, and a release makes the last ready once the cache answers. Its edges form no cycle, and
not every unfinished action waits on another: one has parents that are all done. -/
theorem build_progress (hs : (coordinator settings).Reachable s) {b : BatchRow}
    (hb : b ∈ s.db.batches) (hrunning : b.state = .running)
    (hbuild : ∀ a ∈ b.actions, a.actionClass = .build) :
    (∃ a ∈ b.actions, a.state = .running ∨ a.state = .ready ∨
      a.state = .waiting ∧ a.remainingDeps = 0) ∧
    (∀ a ∈ b.actions, a.state = .waiting → a.remainingDeps = 0 →
      ∃ candidates s₁ s₂, step settings s (.readReleasable (some b.id)) = some s₁ ∧
        step settings s₁ (.makeReady b.id candidates fun _ ↦ some true) = some s₂ ∧
        ∃ b' ∈ s₂.db.batches, b'.id = b.id ∧
          ∃ a' ∈ b'.actions, a'.inputKey = a.inputKey ∧ a'.state = .ready) ∧
    Acyclic (DependsOn b.edges) ∧
    ∃ a ∈ b.actions, a.state.unfinished ∧ ∀ parent, (a.inputKey, parent) ∈ b.edges →
      ∃ p ∈ b.actions, p.inputKey = parent ∧ p.state = .done := by
  obtain ⟨-, hleased⟩ := leased hs
  have hunblocked := exists_unblocked hs hb hrunning hbuild
  refine ⟨?_, fun a ha ↦ exists_release hb hrunning ha, (wired hs b hb).acyclic, hunblocked⟩
  obtain ⟨a, ha, hunfinished, hparents⟩ := hunblocked
  refine ⟨a, ha, ?_⟩
  cases hstate : a.state with
  | running => exact Or.inl rfl
  | ready => exact Or.inr (Or.inl rfl)
  | waiting =>
    obtain ⟨hcount, -⟩ := countsOk hs b hb a ha (by rw [hstate]; rfl) fun h ↦ h
    rw [BatchRow.remaining_eq_countP (hleased b hb) (wired hs b hb)] at hcount
    refine Or.inr (Or.inr ⟨rfl, hcount.trans (List.countP_eq_zero.mpr fun p hp hpending ↦ ?_)⟩)
    obtain ⟨hedge, hnot⟩ := of_decide_eq_true hpending
    obtain ⟨p', hp', hkey, hdone⟩ := hparents _ hedge
    exact hnot (eq_of_key_eq (hleased b hb).keys_nodup hp' hp hkey ▸ hdone)
  | done | failed | cancelled =>
    rw [hstate] at hunfinished
    cases hunfinished

end Reachable

theorem build_progress_sampleState : sampleState.db.batches ≠ [] ∧ ∀ b ∈ sampleState.db.batches,
    ∃ a ∈ b.actions, a.state = .running ∨ a.state = .ready ∨
      a.state = .waiting ∧ a.remainingDeps = 0 := by
  have hrunning : ∀ b ∈ sampleState.db.batches, b.state = .running := by decide
  have hbuild : ∀ b ∈ sampleState.db.batches, ∀ a ∈ b.actions, a.actionClass = .build := by decide
  refine ⟨by decide, fun b hb ↦ ?_⟩
  exact (build_progress reachable_sampleState hb (hrunning b hb) (hbuild b hb)).1

end Holbuild.RemoteExec
