import Holbuild.RemoteExec.Graphs

/-!
# Stored dependency counts

`remaining_deps` is a copy of a count that changes when parents are done, when they are re-queued and
when edges are added, and it is refreshed only in rows that wait or are ready. `CountsOk dirty` says that
the copies are right in all such rows but the dirty ones, and that a ready row has no dependency left.
A statement that changes what the counts depend on makes rows dirty (`CountsOk.of_evolve`), and a refresh
cleans the rows it selects (`CountsOk.refresh`); at the end of each transaction no row is dirty
(`CountsOk.of_change`).

`dependency_counts` states it of every reachable state, with what it means for claims: an action is
leased only when its parents are done.
-/

set_option autoImplicit false
set_option relaxedAutoImplicit false

namespace Holbuild.RemoteExec

open Library

/-- Outside the dirty actions, a row that waits or is ready stores the number of its parents that are not
done, which is zero when it is ready. -/
def BatchRow.CountsOk (dirty : String → Prop) (b : BatchRow) : Prop :=
  ∀ a ∈ b.actions, a.state.queued → ¬ dirty a.inputKey →
    a.remainingDeps = b.remaining a.inputKey ∧ (a.state = .ready → a.remainingDeps = 0)

namespace BatchRow

variable {b b' : BatchRow} {change : ActionRow → ActionRow → Prop}

/-! ### When counts stay the same -/

/-- Assumes: rows that keep their keys, and one that is done exactly when it was. An action is pending
when it was. -/
theorem pending_of_evolve (hrows : Evolve change b.actions b'.actions)
    (hkey : ∀ a a', change a a' → a'.inputKey = a.inputKey) (key : String)
    (hdone : ∀ a a', change a a' → a.inputKey = key → (a'.state = .done ↔ a.state = .done)) :
    b'.pending key = b.pending key := by
  have hrel := hrows.find? hkey key
  have hfound : ∀ a, b.action? key = some a → a.inputKey = key := fun a ha ↦ (action?_eq_some ha).2
  unfold pending
  unfold action? at hfound ⊢
  cases hb : b.actions.find? (·.inputKey = key) with
  | none =>
    cases hb' : b'.actions.find? (·.inputKey = key) with
    | none => rfl
    | some a' =>
      rw [hb, hb'] at hrel
      cases hrel
  | some a =>
    cases hb' : b'.actions.find? (·.inputKey = key) with
    | none =>
      rw [hb, hb'] at hrel
      cases hrel
    | some a' =>
      rw [hb, hb'] at hrel
      cases hrel with
      | some hchange => simp [hdone a a' hchange (hfound a hb)]

/-- Assumes: the same edges of an action, whose parents are pending when they were. -/
theorem remaining_congr {key : String}
    (hedges : b'.edges.filter (·.1 = key) = b.edges.filter (·.1 = key))
    (hpending : ∀ e ∈ b.edges, e.1 = key → b'.pending e.2 = b.pending e.2) :
    b'.remaining key = b.remaining key := by
  unfold remaining
  have hsplit : ∀ c : BatchRow, c.edges.countP (fun e ↦ e.1 = key && c.pending e.2) =
      (c.edges.filter (·.1 = key)).countP fun e ↦ c.pending e.2 := by
    intro c
    rw [List.countP_filter]
    exact List.countP_congr fun e _ ↦ by simp [and_comm]
  rw [hsplit, hsplit, hedges]
  refine List.countP_congr fun e he ↦ ?_
  obtain ⟨hmem, hkey⟩ := List.mem_filter.mp he
  rw [hpending e hmem (by simpa using hkey)]

/-! ### Dirty rows -/

/-- Assumes: rows that keep their keys, where everything a clean row's count depends on is the same, and
clean rows that neither start to wait nor get another count. Those rows stay clean. -/
theorem CountsOk.of_evolve {dirty dirty' : String → Prop} (hb : b.CountsOk dirty)
    (hrows : Evolve change b.actions b'.actions)
    (hkey : ∀ a a', change a a' → a'.inputKey = a.inputKey)
    (hdirty : ∀ key, dirty key → dirty' key)
    (hedges : ∀ key, ¬ dirty' key → b'.edges.filter (·.1 = key) = b.edges.filter (·.1 = key))
    (hdone : ∀ a a', change a a' → (a'.state = .done ↔ a.state = .done) ∨
      ∀ e ∈ b.edges, e.2 = a.inputKey → dirty' e.1)
    (hclean : ∀ a a', change a a' → ¬ dirty' a.inputKey → a'.state.queued →
      a.state.queued ∧ a'.remainingDeps = a.remainingDeps ∧
        (a'.state = .ready → a.state = .ready ∨ a.remainingDeps = 0)) :
    b'.CountsOk dirty' := by
  intro a' ha' hqueued hnot
  obtain ⟨a, ha, hchange⟩ := hrows.exists_before ha'
  rw [hkey a a' hchange] at hnot ⊢
  obtain ⟨hqueued₀, hcount, hready⟩ := hclean a a' hchange hnot hqueued
  obtain ⟨hcount₀, hready₀⟩ := hb a ha hqueued₀ fun h ↦ hnot (hdirty _ h)
  have hremaining : b'.remaining a.inputKey = b.remaining a.inputKey := by
    refine remaining_congr (hedges _ hnot) fun e he hchild ↦
      pending_of_evolve hrows hkey e.2 fun c c' hc hparent ↦ ?_
    refine (hdone c c' hc).resolve_right fun hall ↦ hnot ?_
    rw [← hchild]
    exact hall e he hparent.symm
  refine ⟨by rw [hcount, hcount₀, hremaining], fun h ↦ ?_⟩
  rw [hcount]
  exact (hready h).elim hready₀ fun hzero ↦ hzero

/-- A refresh cleans the rows it selects. -/
theorem CountsOk.refresh {dirty : String → Prop} (hb : b.CountsOk dirty) (selected : String → Bool) :
    (b.refresh selected).CountsOk fun key ↦ dirty key ∧ selected key = false := by
  have hremaining : ∀ key, (b.refresh selected).remaining key = b.remaining key := by
    intro key
    refine remaining_congr rfl fun e _ _ ↦ pending_of_evolve (evolve_refresh b selected)
      (fun a a' ha ↦ ha.1.kept.inputKey) e.2 fun a a' ha _ ↦ ha.1.kept.state_eq_iff rfl
  intro a' ha' hqueued hnot
  obtain ⟨a, ha, rfl⟩ := List.mem_map.mp ha'
  rw [hremaining]
  by_cases hselected : (selected a.inputKey && a.state.queued) = true
  · rw [if_pos hselected]
    refine ⟨rfl, fun hready ↦ ?_⟩
    by_contra hpos
    have hwaiting : 0 < b.remaining a.inputKey := Nat.pos_of_ne_zero hpos
    simp [hwaiting] at hready
  · rw [if_neg hselected] at hqueued hnot ⊢
    refine hb a ha hqueued fun hdirty ↦ hnot ⟨hdirty, ?_⟩
    simpa [hqueued] using hselected

/-- Rows are clean when fewer need be. -/
theorem CountsOk.mono {dirty dirty' : String → Prop} (hb : b.CountsOk dirty)
    (hdirty : ∀ key, dirty key → dirty' key) : b.CountsOk dirty' :=
  fun a ha hqueued hnot ↦ hb a ha hqueued fun h ↦ hnot (hdirty _ h)

/-- Counts depend on the rows and the edges. -/
theorem CountsOk.of_eq {dirty : String → Prop} (hb : b.CountsOk dirty)
    (hactions : b'.actions = b.actions) (hedges : b'.edges = b.edges) : b'.CountsOk dirty := by
  have hremaining : b'.remaining = b.remaining := by
    funext key
    simp only [remaining, pending, action?, hactions, hedges]
  unfold CountsOk
  rw [hactions, hremaining]
  exact hb

/-! ### Changes -/

/-- Assumes: an update of a row that leaves its key alone; either it is done when it was or its children
become dirty; and either it becomes dirty or it does not start to wait. -/
theorem CountsOk.updateAction {dirty dirty' : String → Prop} (hb : b.CountsOk dirty) {key : String}
    {f : ActionRow → ActionRow} (hf : ∀ a, (f a).inputKey = a.inputKey)
    (hdirty : ∀ k, dirty k → dirty' k)
    (hdone : (∀ a ∈ b.actions, a.inputKey = key → ((f a).state = .done ↔ a.state = .done)) ∨
      ∀ e ∈ b.edges, e.2 = key → dirty' e.1)
    (hclean : dirty' key ∨ ∀ a, (f a).state.queued →
      (f a).state = a.state ∧ (f a).remainingDeps = a.remainingDeps) :
    (b.updateAction key f).CountsOk dirty' := by
  refine hb.of_evolve (evolve_updateAction b key f).and_mem (fun a a' ha ↦ ?_) hdirty
    (fun _ _ ↦ rfl) (fun a a' ha ↦ ?_) fun a a' ha hnot hqueued ↦ ?_
  all_goals
    obtain ⟨hmem, htouched⟩ := ha
    rw [touched_iff] at htouched
    by_cases hkey : a.inputKey = key
  · rw [htouched.1 hkey, hf]
  · rw [htouched.2 hkey]
  · rw [htouched.1 hkey]
    exact hdone.imp (fun h ↦ h a hmem hkey) fun h ↦ hkey ▸ h
  · rw [htouched.2 hkey]
    exact Or.inl Iff.rfl
  · rw [htouched.1 hkey] at hqueued ⊢
    obtain ⟨hstate, hcount⟩ := hclean.resolve_left (hkey ▸ hnot) a hqueued
    exact ⟨hstate ▸ hqueued, hcount, fun h ↦ Or.inl (hstate ▸ h)⟩
  · rw [htouched.2 hkey] at hqueued ⊢
    exact ⟨hqueued, rfl, Or.inl⟩

/-- A refresh of keys and then of their children cleans both. -/
theorem CountsOk.refreshKeys {dirty : String → Prop} (hb : b.CountsOk dirty) (key : String) :
    (b.refreshKeys [key]).CountsOk fun k ↦ dirty k ∧ k ≠ key :=
  (hb.refresh fun k ↦ k ∈ [key]).mono fun k hk ↦ ⟨hk.1, by simpa using hk.2⟩

/-- A refresh of the children of an action cleans them. -/
theorem CountsOk.refreshChildren {dirty : String → Prop} (hb : b.CountsOk dirty) (key : String) :
    (b.refreshChildren [key]).CountsOk fun k ↦ dirty k ∧ (k, key) ∉ b.edges := by
  refine (hb.refresh _).mono fun k hk ↦ ⟨hk.1, fun hedge ↦ ?_⟩
  simpa using List.any_eq_false.mp hk.2 _ hedge

/-- Re-queueing an action makes its row and its children dirty and then refreshes them. -/
theorem CountsOk.requeue {dirty : String → Prop} (hb : b.CountsOk dirty) (key : String) :
    (b.requeue key).CountsOk fun k ↦ dirty k ∧ k ≠ key ∧ (k, key) ∉ b.edges := by
  have hupdated : CountsOk (fun k ↦ dirty k ∨ k = key ∨ (k, key) ∈ b.edges)
      (b.updateAction key fun a ↦ if a.state = .done then { a with state := .waiting } else a) := by
    refine hb.updateAction (fun a ↦ by split <;> rfl) (fun _ ↦ Or.inl) (Or.inr ?_)
      (Or.inl (Or.inr (Or.inl rfl)))
    exact fun e he hparent ↦ Or.inr (Or.inr (hparent ▸ he))
  refine ((hupdated.refreshKeys key).refreshChildren key).mono fun k hk ↦ ?_
  obtain ⟨⟨hdirty, hkey⟩, hchild⟩ := hk
  exact ⟨hdirty.resolve_right fun h ↦ h.elim hkey hchild, hkey, hchild⟩

/-- Assumes: an action that is not done. Sending it back to waiting refreshes its row. -/
theorem CountsOk.retry {dirty : String → Prop} (hb : b.CountsOk dirty) {key : String}
    (hkey : ∀ a ∈ b.actions, a.inputKey = key → a.state ≠ .done) :
    (b.retry key).CountsOk dirty := by
  have hset : CountsOk (fun k ↦ dirty k ∨ k = key) (b.setState key .waiting) := by
    refine hb.updateAction (fun _ ↦ rfl) (fun _ ↦ Or.inl) (Or.inl fun a ha hsame ↦ ?_)
      (Or.inl (Or.inr rfl))
    simp [hkey a ha hsame]
  exact (hset.refreshKeys key).mono fun k hk ↦ hk.1.resolve_right hk.2

/-- The completion of an action refreshes its children. -/
theorem CountsOk.finish {dirty : String → Prop} (hb : b.CountsOk dirty) (key : String) :
    (b.finish key).CountsOk dirty := by
  have hset : CountsOk (fun k ↦ dirty k ∨ (k, key) ∈ b.edges) (b.setState key .done) := by
    refine hb.updateAction (fun _ ↦ rfl) (fun _ ↦ Or.inl)
      (Or.inr fun e he hparent ↦ Or.inr (hparent ▸ he)) (Or.inr fun a hqueued ↦ ?_)
    cases hqueued
  have hclean : CountsOk dirty ((b.setState key .done).refreshChildren [key]) :=
    (hset.refreshChildren key).mono fun k hk ↦ hk.1.resolve_right hk.2
  exact hclean.of_eq (finishIfDone_actions _) (finishIfDone_edges _)

/-- Ending a batch leaves no row that waits. -/
theorem countsOk_endBatch {dirty : String → Prop} (state : BatchState) (failure : Option String) :
    (b.endBatch state failure).CountsOk dirty := by
  intro a' ha' hqueued
  obtain ⟨a, ha, hend⟩ := (evolve_endBatch b state failure).exists_before ha'
  split at hend
  · rw [hend] at hqueued
    cases hqueued
  · rename_i hfinished
    rw [hend] at hqueued
    cases hstate : a.state <;> simp_all [ActionState.queued, ActionState.unfinished]

/-- A report on an attempt leaves the counts alone. -/
theorem CountsOk.reported {dirty : String → Prop} (hb : b.CountsOk dirty) {lease : LeaseRow}
    {f : ActionRow → ActionRow} {tier : Option Tier} {back : ℤ} (hf : Records f tier back) :
    (b.reported lease f).CountsOk dirty := by
  have hdeleted : (b.deleteLease lease.attemptToken).CountsOk dirty := hb.of_eq rfl rfl
  have hsame : ∀ a, (f a).state = a.state ∧ (f a).remainingDeps = a.remainingDeps := by
    intro a
    obtain ⟨log, failure, heq⟩ := hf a
    rw [heq]
    exact ⟨rfl, rfl⟩
  refine hdeleted.updateAction hf.inputKey (fun _ h ↦ h) (Or.inl fun a _ _ ↦ ?_)
    (Or.inr fun a _ ↦ hsame a)
  rw [(hsame a).1]

/-- Adding an edge makes the child's row dirty. -/
theorem CountsOk.addEdge {dirty : String → Prop} (hb : b.CountsOk dirty) {child parent : String}
    {added : BatchRow} (hadded : b.addEdge child parent = .ok (some added)) :
    added.CountsOk fun k ↦ dirty k ∨ k = child := by
  refine hb.of_evolve (evolve_addEdge hadded) ?_ (fun _ ↦ Or.inl) (fun key hkey ↦ ?_) ?_ ?_
  · rintro a a' ⟨depth, count, rfl⟩
    rfl
  · rw [(addEdge_frame hadded).2.2.2]
    unfold insertEdge
    split
    · rfl
    · have hne : child ≠ key := fun heq ↦ hkey (Or.inr heq.symm)
      simp [hne]
  · rintro a a' ⟨depth, count, rfl⟩
    exact Or.inl Iff.rfl
  · rintro a a' ⟨depth, count, rfl⟩ - hqueued
    exact ⟨hqueued, rfl, Or.inl⟩

/-- Every change leaves no row dirty. -/
theorem CountsOk.of_change (hleased : b.Leased) (hwired : b.Wired) (hb : b.CountsOk fun _ ↦ False)
    {settings : Settings} {marks : List Mark} (hchange : Change settings b marks b') :
    b'.CountsOk fun _ ↦ False := by
  cases hchange with
  | @claim a now token worker hrunning ha hready htoken =>
    have hupdated : CountsOk (fun _ ↦ False) (b.updateAction a.inputKey fun a ↦
        { a with state := .running, attempts := a.attempts + 1, lastClaimedAt := some now }) := by
      refine hb.updateAction (fun _ ↦ rfl) (fun _ h ↦ h) (Or.inl fun c hc hkey ↦ ?_)
        (Or.inr fun c hqueued ↦ ?_)
      · rw [eq_of_key_eq hleased.keys_nodup hc ha hkey, hready]
        simp
      · cases hqueued
    exact hupdated.of_eq rfl rfl
  | heartbeat now token => exact hb.of_eq rfl rfl
  | makeReady keys hrunning =>
    refine hb.of_evolve (evolve_makeReady b keys) ?_ (fun _ h ↦ h) (fun _ _ ↦ rfl) ?_ ?_
    · rintro a a' (rfl | ⟨-, -, rfl⟩) <;> rfl
    · rintro a a' (rfl | ⟨hwaiting, -, rfl⟩)
      · exact Or.inl Iff.rfl
      · exact Or.inl (by simp [hwaiting])
    · rintro a a' (rfl | ⟨hwaiting, hzero, rfl⟩) - hqueued
      · exact ⟨hqueued, rfl, Or.inl⟩
      · exact ⟨by rw [hwaiting]; rfl, rfl, fun _ ↦ Or.inr hzero⟩
  | requeue => exact (hb.requeue _).mono fun _ h ↦ h.1
  | evict | stop => exact countsOk_endBatch _ _
  | @ends lease _ _ _ hends =>
    cases hends with
    | failBuild | resubmit => exact countsOk_endBatch _ _
    | finish hattempt hf => exact (hb.reported hf).finish _
    | retry hattempt hf | raise hattempt hf | unavailable hattempt hf =>
      refine (hb.reported hf).retry fun a ha hkey ↦ ?_
      rw [hleased.reported_state hattempt.lease_mem hf ha hkey]
      simp
    | @block a f parent added hattempt hf hattempts hparent hadded =>
      have hchild : lease.inputKey ∈ (b.reported lease f).keys := by
        rw [keys_reported hf]
        exact hleased.lease_key_mem _ (List.mem_map_of_mem hattempt.lease_mem)
      rw [← keys_reported hf] at hparent
      have hedge := ((hwired.reported hf).of_addEdge hchild hparent hadded).2
      have hset : CountsOk (fun k ↦ k = lease.inputKey) (added.setState lease.inputKey .waiting) := by
        refine ((hb.reported hf).addEdge hadded).updateAction (fun _ ↦ rfl)
          (fun _ h ↦ h.resolve_left fun h ↦ h) (Or.inl fun c hc hkey ↦ ?_) (Or.inl rfl)
        obtain ⟨c₀, hc₀, depth, count, rfl⟩ := (evolve_addEdge hadded).exists_before hc
        simp [hleased.reported_state hattempt.lease_mem hf hc₀ hkey]
      exact (hset.requeue parent).mono fun k hk ↦ hk.2.2 (hk.1 ▸ hedge)
    | @failRun a f hattempt hf hclass =>
      have hset : CountsOk (fun _ ↦ False) ((b.reported lease f).setState lease.inputKey .failed) := by
        refine (hb.reported hf).updateAction (fun _ ↦ rfl) (fun _ h ↦ h) (Or.inl fun c hc hkey ↦ ?_)
          (Or.inr fun c hqueued ↦ ?_)
        · simp [hleased.reported_state hattempt.lease_mem hf hc hkey]
        · cases hqueued
      exact hset.of_eq (finishIfDone_actions _) (finishIfDone_edges _)

/-- An action is pending exactly when the batch has a row of it that is not done. -/
theorem pending_iff (hleased : b.Leased) (key : String) :
    b.pending key ↔ ∃ p ∈ b.actions, p.inputKey = key ∧ p.state ≠ .done := by
  unfold pending
  constructor
  · intro hpending
    obtain ⟨p, hp, hstate⟩ := (Option.any_eq_true _ _).mp hpending
    obtain ⟨hmem, hkey⟩ := action?_eq_some hp
    exact ⟨p, hmem, hkey, by simpa using hstate⟩
  · rintro ⟨p, hp, rfl, hstate⟩
    rw [action?, find?_eq_some_of_mem hleased.keys_nodup hp]
    simpa using hstate

/-- Assumes: distinct keys and edges between actions. The count of an action's edges to pending actions is
the number of its parents that are not done. -/
theorem remaining_eq_countP (hleased : b.Leased) (hwired : b.Wired) (key : String) :
    b.remaining key =
      b.actions.countP fun p ↦ (key, p.inputKey) ∈ b.edges ∧ p.state ≠ .done := by
  have hperm : ((b.edges.filter fun e ↦ e.1 = key && b.pending e.2).map (·.2)).Perm
      ((b.actions.filter fun p ↦ (key, p.inputKey) ∈ b.edges ∧ p.state ≠ .done).map
        (·.inputKey)) := by
    refine (List.perm_ext_iff_of_nodup ?_ ?_).mpr fun parent ↦ ?_
    · refine List.Nodup.map_on ?_ (hwired.edges_nodup.filter _)
      rintro ⟨c, p⟩ hc ⟨c', p'⟩ hc' hparent
      simp only [List.mem_filter, Bool.and_eq_true, decide_eq_true_eq] at hc hc'
      exact Prod.ext (hc.2.1.trans hc'.2.1.symm) hparent
    · exact (List.filter_sublist.map _).nodup hleased.keys_nodup
    · simp only [List.mem_map, List.mem_filter, Bool.and_eq_true, decide_eq_true_eq,
        pending_iff hleased]
      constructor
      · rintro ⟨⟨c, _⟩, ⟨hedge, rfl, p, hp, rfl, hstate⟩, rfl⟩
        exact ⟨p, ⟨hp, hedge, hstate⟩, rfl⟩
      · rintro ⟨p, ⟨hp, hedge, hstate⟩, rfl⟩
        exact ⟨(key, p.inputKey), ⟨hedge, rfl, p, hp, rfl, hstate⟩, rfl⟩
  rw [remaining, List.countP_eq_length_filter, List.countP_eq_length_filter, ← List.length_map (·.2),
    hperm.length_eq, List.length_map]

end BatchRow

section Reachable

variable {settings : Settings} {s : State}

/-- The counts of a submitted batch are right. -/
theorem Fresh.countsOk {id : Uuid} {batch : Batch} {actionClass : ActionClass} {b : BatchRow}
    (hb : Fresh id batch actionClass b) : b.CountsOk fun _ ↦ False := by
  intro a ha _ _
  refine ⟨?_, fun hready ↦ ?_⟩
  · rw [hb.remainingDeps a ha]
    refine List.countP_congr fun e he ↦ ?_
    obtain ⟨p, hp, hkey⟩ := List.mem_map.mp (hb.wired.edges_mem e he).2
    have hpending : b.pending e.2 :=
      (BatchRow.pending_iff hb.leased e.2).mpr ⟨p, hp, hkey, by simp [hb.waiting p hp]⟩
    simp [hpending]
  · rw [hb.waiting a ha] at hready
    cases hready

/-- In every reachable state the counts of the batches are right. -/
theorem countsOk (hs : (coordinator settings).Reachable s) :
    ∀ b ∈ s.db.batches, b.CountsOk fun _ ↦ False := by
  have hall := invariant_of_leased (P := fun b ↦ b.Wired ∧ b.CountsOk fun _ ↦ False)
    (fun id batch actionClass b hfresh ↦ ⟨hfresh.wired, hfresh.countsOk⟩)
    (fun b marks b' hleased hb hchange ↦
      ⟨hb.1.of_change hleased hchange, hb.2.of_change hleased hb.1 hchange⟩) hs
  exact fun b hb ↦ (hall b hb).2

/-- In every reachable state an action of a running batch that waits or is ready stores the number of its
parents that are not done, and a ready one has none. So no step leases an action with a parent that is not
done. -/
theorem dependency_counts (hs : (coordinator settings).Reachable s) :
    (∀ b ∈ s.db.batches, b.state = .running → ∀ a ∈ b.actions, a.state ∈ [.waiting, .ready] →
      a.remainingDeps =
        (b.actions.countP fun p ↦ (a.inputKey, p.inputKey) ∈ b.edges ∧ p.state ≠ .done) ∧
      (a.state = .ready → a.remainingDeps = 0)) ∧
    ∀ e s', step settings s e = some s' → ∀ r ∈ s'.db.leases,
      (∀ r₀ ∈ s.db.leases, r₀.2.attemptToken ≠ r.2.attemptToken) →
        ∃ b ∈ s.db.batches, b.id = r.1 ∧ ∀ parent, (r.2.inputKey, parent) ∈ b.edges →
          ∃ p ∈ b.actions, p.inputKey = parent ∧ p.state = .done := by
  obtain ⟨hsound, hleased⟩ := leased hs
  refine ⟨fun b hb _ a ha hstate ↦ ?_, fun e s' hstep r hr hnew ↦ ?_⟩
  · have hqueued : a.state.queued := by
      simp only [List.mem_cons, List.not_mem_nil, or_false] at hstate
      rcases hstate with h | h <;> rw [h] <;> rfl
    obtain ⟨hcount, hready⟩ := countsOk hs b hb a ha hqueued fun h ↦ h
    rw [BatchRow.remaining_eq_countP (hleased b hb) (wired hs b hb)] at hcount
    exact ⟨hcount, hready⟩
  · obtain ⟨b, hb, hid, hrunning, a, ha, hkey, hready⟩ := ready_of_new_lease hs hstep hr hnew
    refine ⟨b, hb, hid, fun parent hedge ↦ ?_⟩
    obtain ⟨hcount, hzero⟩ := countsOk hs b hb a ha (by rw [hready]; rfl) fun h ↦ h
    rw [hzero hready, BatchRow.remaining_eq_countP (hleased b hb) (wired hs b hb), eq_comm,
      List.countP_eq_zero] at hcount
    obtain ⟨p, hp, rfl⟩ := List.mem_map.mp ((wired hs b hb).edges_mem _ hedge).2
    refine ⟨p, hp, rfl, ?_⟩
    by_contra hdone
    exact hcount p hp (by simpa [hkey] using ⟨hedge, hdone⟩)

end Reachable

theorem dependency_counts_sampleState : sampleState.db.batches ≠ [] ∧
    ∀ b ∈ sampleState.db.batches, b.state = .running → ∀ a ∈ b.actions, a.state ∈ [.waiting, .ready] →
      a.remainingDeps =
        (b.actions.countP fun p ↦ (a.inputKey, p.inputKey) ∈ b.edges ∧ p.state ≠ .done) ∧
      (a.state = .ready → a.remainingDeps = 0) :=
  ⟨by decide, (dependency_counts reachable_sampleState).1⟩

end Holbuild.RemoteExec
