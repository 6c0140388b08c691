import Holbuild.RemoteExec.Leases

/-!
# The dependency graphs of batches

What holds of the edges of every batch (`BatchRow.Wired`): they are distinct, join actions of the
batch, form no cycle, and the stored priorities are those that `dag_priorities` computes from them.
A submission establishes it, and the one change that touches edges, the insertion after an
`input-missing` result, recomputes the priorities and is refused when it would close a cycle
(`Wired.of_addEdge`). `priorities_exact` states what `dag_priorities` computes and that the stored
priorities stay equal to it.
-/

set_option autoImplicit false
set_option relaxedAutoImplicit false

namespace Holbuild.RemoteExec

open Library

/-- The graph invariant of a batch. -/
structure BatchRow.Wired (b : BatchRow) : Prop where
  edges_mem : ∀ e ∈ b.edges, e.1 ∈ b.keys ∧ e.2 ∈ b.keys
  edges_nodup : b.edges.Nodup
  acyclic : Acyclic (DependsOn b.edges)
  priorities : dagPriorities b.keys b.edges = .ok (b.actions.map fun a ↦ (a.inputKey, a.priority))

namespace BatchRow.Wired

open BatchRow

variable {b b' : BatchRow}

/-- Assumes: the same edges and rows. -/
theorem of_eq (hb : b.Wired) (hedges : b'.edges = b.edges) (hactions : b'.actions = b.actions) :
    b'.Wired := by
  have hkeys : b'.keys = b.keys := by rw [keys, hactions, keys]
  refine ⟨?_, hedges ▸ hb.edges_nodup, hedges ▸ hb.acyclic, ?_⟩
  · rw [hedges, hkeys]
    exact hb.edges_mem
  · rw [hedges, hkeys, hactions]
    exact hb.priorities

/-- Assumes: an update that leaves keys and priorities alone. -/
theorem mapActions (hb : b.Wired) {f : ActionRow → ActionRow}
    (hf : ∀ a, (f a).inputKey = a.inputKey ∧ (f a).priority = a.priority) :
    (b.mapActions f).Wired := by
  have hkeys : (b.mapActions f).keys = b.keys := keys_mapActions fun a ↦ (hf a).1
  have hcolumn : (b.actions.map f).map (fun a ↦ (a.inputKey, a.priority)) =
      b.actions.map fun a ↦ (a.inputKey, a.priority) := by
    rw [List.map_map]
    refine List.map_congr_left fun a _ ↦ ?_
    rw [Function.comp_apply, (hf a).1, (hf a).2]
  refine ⟨?_, hb.edges_nodup, hb.acyclic, ?_⟩
  · rw [hkeys]
    exact hb.edges_mem
  · rw [hkeys, mapActions_actions, hcolumn]
    exact hb.priorities

/-- Assumes: an update of a row that leaves its key and priority alone. -/
theorem updateAction (hb : b.Wired) (key : String) {f : ActionRow → ActionRow}
    (hf : ∀ a, (f a).inputKey = a.inputKey ∧ (f a).priority = a.priority) :
    (b.updateAction key f).Wired := by
  refine hb.mapActions fun a ↦ ?_
  split
  · exact hf a
  · exact ⟨rfl, rfl⟩

theorem setState (hb : b.Wired) (key : String) (state : ActionState) : (b.setState key state).Wired :=
  hb.updateAction key fun _ ↦ ⟨rfl, rfl⟩

theorem refresh (hb : b.Wired) (selected : String → Bool) : (b.refresh selected).Wired := by
  refine hb.mapActions fun a ↦ ?_
  split <;> exact ⟨rfl, rfl⟩

theorem requeue (hb : b.Wired) (key : String) : (b.requeue key).Wired := by
  have hupdated := hb.updateAction key (f := fun a ↦
    if a.state = .done then { a with state := .waiting } else a) fun a ↦ by split <;> exact ⟨rfl, rfl⟩
  unfold BatchRow.requeue refreshChildren refreshKeys
  exact (hupdated.refresh _).refresh _

theorem retry (hb : b.Wired) (key : String) : (b.retry key).Wired := by
  unfold BatchRow.retry refreshKeys
  exact (hb.setState key .waiting).refresh _

theorem endBatch (hb : b.Wired) (state : BatchState) (failure : Option String) :
    (b.endBatch state failure).Wired := by
  have hcancelled := hb.mapActions (f := fun a ↦
    if a.state.unfinished then { a with state := .cancelled } else a) fun a ↦ by
      split <;> exact ⟨rfl, rfl⟩
  exact hcancelled.of_eq rfl rfl

theorem reported (hb : b.Wired) {lease : LeaseRow} {f : ActionRow → ActionRow} {tier : Option Tier}
    {back : ℤ} (hf : Records f tier back) : (b.reported lease f).Wired := by
  have hdeleted : (b.deleteLease lease.attemptToken).Wired := hb.of_eq rfl rfl
  refine hdeleted.updateAction _ fun a ↦ ?_
  obtain ⟨log, failure, heq⟩ := hf a
  rw [heq]
  exact ⟨rfl, rfl⟩

/-- The edges after an insertion are the edges before it and the one inserted. -/
theorem mem_insertEdge (b : BatchRow) (child parent : String) (e : String × String) :
    e ∈ b.edges ++ [(child, parent)] ↔ e ∈ (b.insertEdge child parent).edges := by
  unfold insertEdge
  split
  · rename_i hmem
    simp only [List.mem_append, List.mem_singleton, or_iff_left_iff_imp]
    rintro rfl
    exact hmem
  · exact Iff.rfl

/-- The edges after an insertion are distinct when those before it are. -/
theorem nodup_insertEdge (hb : b.edges.Nodup) (child parent : String) :
    (b.insertEdge child parent).edges.Nodup := by
  unfold insertEdge
  split
  · exact hb
  · rename_i hmem
    exact hb.append (List.nodup_singleton _) (List.disjoint_singleton.mpr hmem)

/-- Assumes: a table with a priority for every key. After the update every row has its priority in the
table. -/
theorem reprioritise_priority (priority : String → Priority) :
    (b.reprioritise (b.keys.map fun key ↦ (key, priority key))).actions.map
        (fun a ↦ (a.inputKey, a.priority)) =
      b.keys.map fun key ↦ (key, priority key) := by
  rw [reprioritise, mapActions_actions, List.map_map, keys, List.map_map]
  refine List.map_congr_left fun a ha ↦ ?_
  have hkey : a.inputKey ∈ b.actions.map (·.inputKey) := List.mem_map_of_mem ha
  have hlookup := lookup_map_self priority hkey
  simp only [List.map_map, Function.comp_apply] at hlookup ⊢
  rw [hlookup]
  by_cases hsame : priority a.inputKey = a.priority
  · simp [hsame]
  · dsimp only
    rw [if_pos hsame]
    rfl

/-- An edge between actions of the batch that `_add_edge` adds keeps the invariant, and is an edge
afterwards. -/
theorem of_addEdge (hb : b.Wired) {child parent : String} {added : BatchRow}
    (hchild : child ∈ b.keys) (hparent : parent ∈ b.keys)
    (hadded : b.addEdge child parent = .ok (some added)) :
    added.Wired ∧ (child, parent) ∈ added.edges := by
  have hedges : ∀ e ∈ b.edges ++ [(child, parent)], e.1 ∈ b.keys ∧ e.2 ∈ b.keys := by
    intro e he
    rcases List.mem_append.mp he with he | he
    · exact hb.edges_mem e he
    · rw [List.mem_singleton.mp he]
      exact ⟨hchild, hparent⟩
  have hacyclic : Acyclic (DependsOn (b.edges ++ [(child, parent)])) := by
    by_contra hcyclic
    rw [addEdge, (dagPriorities_eq_cycleError_iff hedges).mpr hcyclic] at hadded
    cases hadded
  obtain ⟨priority, hpriority, -⟩ := dagPriorities_eq_ok hedges hacyclic
  rw [addEdge, hpriority] at hadded
  obtain rfl := Option.some.inj (Except.ok.inj hadded)
  have hkeys' : (b.insertEdge child parent).keys = b.keys := by
    rw [keys, insertEdge_actions, keys]
  rw [← hkeys'] at hpriority hedges ⊢
  set inserted := b.insertEdge child parent with hinserted
  have hkeys : (inserted.reprioritise (inserted.keys.map fun key ↦ (key, priority key))).keys =
      inserted.keys := by
    refine (evolve_reprioritise inserted _).map_eq fun a a' h ↦ ?_
    obtain ⟨depth, count, rfl⟩ := h
    rfl
  have hmem := mem_insertEdge b child parent
  refine ⟨⟨?_, nodup_insertEdge hb.edges_nodup child parent, ?_, ?_⟩, ?_⟩
  · rw [hkeys]
    exact fun e he ↦ hedges e ((hmem e).mpr he)
  · exact hacyclic.mono fun c p hedge ↦ (hmem (c, p)).mpr hedge
  · rw [hkeys, reprioritise_priority, ← hpriority]
    exact (dagPriorities_congr hedges hmem).symm
  · exact (hmem _).mp (List.mem_append_right _ (List.mem_singleton_self _))

/-- Every change keeps the invariant. -/
theorem of_change (hleased : b.Leased) (hb : b.Wired) {settings : Settings} {marks : List Mark}
    (hchange : Change settings b marks b') : b'.Wired := by
  cases hchange with
  | @claim a now token worker =>
    have hclaimed := hb.updateAction a.inputKey (f := fun a ↦
      { a with state := .running, attempts := a.attempts + 1, lastClaimedAt := some now })
      fun _ ↦ ⟨rfl, rfl⟩
    exact hclaimed.of_eq rfl rfl
  | heartbeat now token => exact hb.of_eq rfl rfl
  | makeReady keys hrunning =>
    refine hb.mapActions fun a ↦ ?_
    split <;> exact ⟨rfl, rfl⟩
  | requeue => exact hb.requeue _
  | evict => exact (hb.setState _ _).endBatch _ _
  | stop failure => exact hb.endBatch _ failure
  | @ends lease _ _ _ hends =>
    cases hends with
    | finish hattempt hf =>
      exact (((hb.reported hf).setState _ _).refresh _).of_eq (finishIfDone_edges _)
        (finishIfDone_actions _)
    | retry hattempt hf | raise hattempt hf | unavailable hattempt hf =>
      exact (hb.reported hf).retry _
    | @block a f parent added hattempt hf hattempts hparent hadded =>
      have hchild : lease.inputKey ∈ b.keys :=
        hleased.lease_key_mem _ (List.mem_map_of_mem hattempt.lease_mem)
      rw [← keys_reported hf] at hchild hparent
      exact ((((hb.reported hf).of_addEdge hchild hparent hadded).1).setState _ _).requeue _
    | failRun hattempt hf hclass =>
      exact ((hb.reported hf).setState _ _).of_eq (finishIfDone_edges _) (finishIfDone_actions _)
    | failBuild failure hattempt hf | resubmit failure hattempt hf =>
      exact ((hb.reported hf).setState _ _).endBatch _ _

end BatchRow.Wired

section Reachable

variable {settings : Settings} {s : State}

/-- A submitted batch satisfies the graph invariant. -/
theorem Fresh.wired {id : Uuid} {batch : Batch} {actionClass : ActionClass} {b : BatchRow}
    (hb : Fresh id batch actionClass b) : b.Wired := by
  refine ⟨?_, hb.edges_eq ▸ batch.edges_nodup, hb.edges_eq ▸ batch.acyclic, hb.priorities⟩
  rw [hb.edges_eq, hb.keys_eq]
  exact batch.edges_mem

/-- In every reachable state the batches satisfy the graph invariant. -/
theorem wired (hs : (coordinator settings).Reachable s) : ∀ b ∈ s.db.batches, b.Wired :=
  invariant_of_leased (fun _ _ _ _ hfresh ↦ hfresh.wired)
    (fun _ _ _ hleased hb hchange ↦ hb.of_change hleased hchange) hs

end Reachable

/-- `dag_priorities` gives every key the length of the longest chain of its dependents and the number of
them, and raises `CycleError` exactly on edges with a cycle. In every reachable state the edges of each
batch have no cycle, and the stored priorities are those of its edges. -/
theorem priorities_exact :
    (∀ (keys : List String) (edges : List (String × String)), keys.Nodup →
      (∀ e ∈ edges, e.1 ∈ keys ∧ e.2 ∈ keys) →
        (Acyclic (DependsOn edges) → ∃ priority : String → Priority,
          dagPriorities keys edges = .ok (keys.map fun key ↦ (key, priority key)) ∧
            ∀ key ∈ keys, IsPriority edges key (priority key)) ∧
        (dagPriorities keys edges = .error .cycleError ↔ ¬ Acyclic (DependsOn edges))) ∧
    ∀ (settings : Settings) (s : State), (coordinator settings).Reachable s → ∀ b ∈ s.db.batches,
      Acyclic (DependsOn b.edges) ∧
        dagPriorities b.keys b.edges = .ok (b.actions.map fun a ↦ (a.inputKey, a.priority)) :=
  ⟨fun _ _ _ hedges ↦ ⟨dagPriorities_eq_ok hedges, dagPriorities_eq_cycleError_iff hedges⟩,
    fun _ _ hs b hb ↦ ⟨(wired hs b hb).acyclic, (wired hs b hb).priorities⟩⟩

theorem priorities_exact_sampleBatch :
    dagPriorities ["a", "b"] [("b", "a")] ≠ .error .cycleError ∧
      ∀ b ∈ sampleState.db.batches, Acyclic (DependsOn b.edges) :=
  ⟨by
    rw [ne_eq, (priorities_exact.1 ["a", "b"] [("b", "a")] (by decide) (by decide)).2, not_not]
    exact sampleBatch.acyclic,
    fun b hb ↦ (priorities_exact.2 {} sampleState reachable_sampleState b hb).1⟩

end Holbuild.RemoteExec
