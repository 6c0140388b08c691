import Holbuild.BuildPlan.Invalidation
import Holbuild.ParallelBuild.Progress

/-!
# Building a plan in parallel

The scheduler runs on the positions of a plan's selected nodes (`nodeGraph`). `parallel_build_correct`
says in which order nodes start, that workers never all wait, and that a build nothing halts builds
every node once. `evictions_spare_active` says what checkpoint maintenance leaves alone, and that every
node that queued for it has its turn.
-/

set_option autoImplicit false
set_option relaxedAutoImplicit false

namespace Holbuild.ParallelBuild

open BuildPlan Library

variable {c : KeyContext} {node : Node}

/-! ### The nodes of a plan -/

/-- The positions of the nodes a node's edges lead to. -/
def depIds (c : KeyContext) (node : Node) : Except PlanError (List ℕ) := do
  let deps ← c.directProjectDeps node
  deps.mapM fun dep ↦ indexedKeyId (buildKeyIndex c.plan.selected) dep.key

/-- Every dependency of a selected node is found, at its position in the selected order. -/
theorem depIds_eq_ok (hplan : c.plan.WellFormed) (hnode : node ∈ c.plan.selected) :
    ∃ deps, c.directProjectDeps node = .ok deps ∧ deps.Nodup ∧
      (∀ dep, dep ∈ deps ↔ c.plan.DependsOn node dep) ∧
      depIds c node = .ok (deps.map c.plan.selected.idxOf) := by
  obtain ⟨deps, hdeps, hmem⟩ := KeyContext.directProjectDeps_eq_ok hplan hnode
  have hnodup : deps.Nodup := by
    obtain ⟨targets, -, htargets⟩ := bind_eq_ok_iff.mp hdeps
    exact Except.ok.inj htargets ▸ nodup_uniqueNodes targets
  refine ⟨deps, hdeps, hnodup, hmem, bind_eq_ok_iff.mpr ⟨deps, hdeps, mapM_eq_ok fun dep hdep ↦ ?_⟩⟩
  exact indexedKeyId_of_mem hplan.keys ((hmem dep).mp hdep).2.1

/-- The dependencies of the node at a position. -/
def depsAt (c : KeyContext) (id : ℕ) : List ℕ :=
  match c.plan.selected[id]? with
  | some node => (depIds c node).toOption.getD []
  | none => []

theorem depsAt_eq (hplan : c.plan.WellFormed) {id : ℕ} (hnode : c.plan.selected[id]? = some node) :
    ∃ deps, c.directProjectDeps node = .ok deps ∧ deps.Nodup ∧
      (∀ dep, dep ∈ deps ↔ c.plan.DependsOn node dep) ∧
      depsAt c id = deps.map c.plan.selected.idxOf := by
  obtain ⟨deps, hdeps, hnodup, hmem, hids⟩ := depIds_eq_ok hplan (List.mem_of_getElem? hnode)
  refine ⟨deps, hdeps, hnodup, hmem, ?_⟩
  rw [depsAt, hnode]
  show (depIds c node).toOption.getD [] = _
  rw [hids]
  rfl

/-- The selected nodes by position. -/
def nodeGraph (c : KeyContext) (hplan : c.plan.WellFormed) : NodeGraph where
  count := c.plan.selected.length
  deps := depsAt c
  nodup id := by
    cases hnode : c.plan.selected[id]? with
    | none =>
      rw [depsAt, hnode]
      exact List.nodup_nil
    | some node =>
      obtain ⟨deps, -, hnodup, hmem, hids⟩ := depsAt_eq hplan hnode
      rw [hids]
      exact hnodup.map_on fun a ha _ _ hab ↦ (List.idxOf_inj ((hmem a).mp ha).2.1).mp hab
  lt id dep hdep := by
    cases hnode : c.plan.selected[id]? with
    | none =>
      rw [depsAt, hnode] at hdep
      cases hdep
    | some node =>
      obtain ⟨deps, -, -, hmem, hids⟩ := depsAt_eq hplan hnode
      rw [hids] at hdep
      obtain ⟨target, htarget, rfl⟩ := List.mem_map.mp hdep
      -- keys tell nodes apart, so the node stands at one position
      have hposition : c.plan.selected.idxOf node = id := by
        obtain ⟨hid, hget⟩ := List.getElem?_eq_some_iff.mp hnode
        exact hget ▸ (List.Nodup.of_map Node.key hplan.keys).idxOf_getElem id hid
      exact hposition ▸ hplan.idxOf_lt ((hmem target).mp htarget)

/-- The scheduler's view of a plan: which nodes have a retained failed prefix, and the base of each
node's checkpoint family. -/
def setup (c : KeyContext) (hplan : c.plan.WellFormed) (failedPrefix : Node → Bool)
    (checkpointsPossible : Bool) (base : Node → Text) : Setup where
  graph := nodeGraph c hplan
  failedPrefix id := (c.plan.selected[id]?).any failedPrefix
  checkpointsPossible := checkpointsPossible
  base id := ((c.plan.selected[id]?).map base).getD []

section Nodes

variable {jobs : ℕ} (c) (s : State jobs) (node : Node)

/-- The node was started. -/
def Started : Prop := c.plan.selected.idxOf node ∈ s.shared.history.started

/-- The node was finished with success. -/
def Succeeded : Prop := c.plan.selected.idxOf node ∈ s.shared.history.succeeded

/-- The node was started and has not finished or failed. -/
def Active : Prop := Started c s node ∧ c.plan.selected.idxOf node ∉ s.shared.history.ended

end Nodes

variable {p : Planner} {holdir : Text} {selection : TargetSelection} {jobs : ℕ}

/-- The scheduler is correct: in every reachable state the started nodes are distinct and the
dependencies of each have succeeded; after a failure or an inspected node no run starts another node;
as long as some worker has not exited, some worker can step, and complete runs end with all workers
gone; then, if nothing halted the build, every selected node was built once. -/
theorem parallel_build_correct (hkeys : (p.nodes.map Node.key).Nodup) (hdescribed : p.Described)
    (hplan : p.planSelection holdir selection = .ok c.plan) (failedPrefix : Node → Bool)
    (checkpointsPossible : Bool) (base : Node → Text) (hjobs : 0 < jobs) :
    let b := setup c (Planner.wellFormed_of_planSelection hkeys hdescribed hplan) failedPrefix
      checkpointsPossible base
    (∀ s, (b.machine jobs).Reachable s →
      (∀ node ∈ c.plan.selected, Started c s node → ∃ deps, c.directProjectDeps node = .ok deps ∧
        ∀ dep ∈ deps, Succeeded c s dep) ∧
      s.shared.history.started.Nodup ∧
      (s.shared.Halted → ∀ events last, (b.machine jobs).run s events = some last →
        last.shared.history.started = s.shared.history.started) ∧
      ((∃ w, s.workers w ≠ .exited) → ∃ w, ∀ input, (b.step s ⟨w, input⟩).isSome) ∧
      ((∀ w, s.workers w = .exited) → ¬ s.shared.Halted → ∀ node ∈ c.plan.selected,
        s.shared.history.started.count (c.plan.selected.idxOf node) = 1 ∧ Succeeded c s node)) ∧
      ∀ states, (b.machine jobs).Complete states → ∃ k, ∀ w, (states k).workers w = .exited := by
  have hwell := Planner.wellFormed_of_planSelection hkeys hdescribed hplan
  refine ⟨fun s hs ↦ ?_, fun states hrun ↦ ?_⟩
  · have hvalid := valid_of_reachable hs
    refine ⟨fun node hnode hstarted ↦ ?_, hvalid.books.started_nodup,
      fun hhalted events last ↦ started_eq_of_halted hs hhalted, hvalid.exists_step,
      fun hexited hrunning node hnode ↦ ?_⟩
    · obtain ⟨deps, hdeps, -, -, hids⟩ := depsAt_eq hwell (List.getElem?_idxOf hnode)
      refine ⟨deps, hdeps, fun dep hdep ↦ hvalid.books.deps _ hstarted _ ?_⟩
      show c.plan.selected.idxOf dep ∈ depsAt c (c.plan.selected.idxOf node)
      rw [hids]
      exact List.mem_map_of_mem hdep
    · have hfailure : s.shared.failure = none := by
        by_contra hfailed
        exact hrunning (.inl hfailed)
      have hstopped : s.shared.stopped = false := by
        by_contra hstop
        exact hrunning (.inr (by simpa using hstop))
      exact hvalid.all_built hjobs hexited hfailure hstopped (List.idxOf_lt_length_iff.mpr hnode)
  · obtain ⟨k, -, hexited⟩ := exists_exited hrun 0
    exact ⟨k, hexited⟩

/-! ### Three nodes and two workers -/

/-- The plan for a module that loads a structure with a signature. -/
def sampleBuildPlan : Except PlanError Plan :=
  (Planner.samplePlanner "b").planSelection "/hol".toList (.selectedTargets ["a".toList])

def sampleBuildContext : KeyContext where
  plan := sampleBuildPlan.toOption.getD ⟨[], [], [], ⟨[], [], [], [], []⟩, [], [], []⟩
  analysis := (Planner.samplePlanner "b").analysis
  sourceText _ := []
  root := .dir true []
  hash text := text
  configLines _ := []
  toolchainKey := []

theorem sampleBuildPlan_eq : sampleBuildPlan = .ok sampleBuildContext.plan := by
  have hok : sampleBuildPlan.isOk = true := by decide +kernel
  unfold sampleBuildContext
  dsimp only
  revert hok
  cases sampleBuildPlan with
  | ok plan => exact fun _ ↦ rfl
  | error e => exact fun hok ↦ by cases hok

theorem wellFormed_sampleBuild : sampleBuildContext.plan.WellFormed :=
  Planner.wellFormed_of_planSelection (by decide +kernel) (by decide +kernel) sampleBuildPlan_eq

/-- The plan with checkpoints, where the structure failed before. -/
def sampleSetup : Setup :=
  setup sampleBuildContext wellFormed_sampleBuild (fun node ↦ node.relativePath = "b.sml".toList) true
    Node.relativePath

/-- An input that finds one old family in a tree over its budget. -/
def sampleInput : Input where
  outcome := .succeeded true
  pass := ⟨⟨[⟨"old".toList, 0, 10⟩], 10⟩, 1, fun _ ↦ false⟩
  breaksOff := false

/-- One worker builds the signature and looks for families to evict, the other waits for work. -/
def sampleEvents : List (Event 2) :=
  [⟨0, sampleInput⟩, ⟨0, sampleInput⟩, ⟨0, sampleInput⟩, ⟨1, sampleInput⟩, ⟨0, sampleInput⟩]

theorem isSome_sampleEvents :
    ((sampleSetup.machine 2).run (sampleSetup.machine 2).initial sampleEvents).isSome := by
  decide +kernel

def sampleBuildState : State 2 :=
  ((sampleSetup.machine 2).run (sampleSetup.machine 2).initial sampleEvents).get isSome_sampleEvents

example : sampleBuildState.workers 0 = .evicting 0 ["b.sig".toList] ["old".toList] ∧
    sampleBuildState.workers 1 = .waitingWork := by decide +kernel

theorem parallel_build_correct_sample : sampleBuildState.shared.history.started.Nodup ∧
    ∃ w, ∀ input, (sampleSetup.step sampleBuildState ⟨w, input⟩).isSome := by
  have hcorrect := (parallel_build_correct (by decide +kernel) (by decide +kernel) sampleBuildPlan_eq
    (fun node ↦ node.relativePath = "b.sml".toList) true Node.relativePath (by decide : 0 < 2)).1
      sampleBuildState (Machine.reachable_of_run isSome_sampleEvents)
  exact ⟨hcorrect.2.1, hcorrect.2.2.2.1 ⟨0, by decide +kernel⟩⟩

/-! ### Checkpoint maintenance -/

/-- The node whose maintenance pass a worker is at, from the snapshot of the active nodes to the end of
the evictions. -/
def Worker.pass? : Worker → Option ℕ
  | .maintaining id _ => some id
  | .evicting id _ _ => some id
  | _ => none

/-- The family that a worker's step removes or tries to remove. -/
def removal (s : State jobs) (event : Event jobs) : Option Text :=
  match s.workers event.worker with
  | .evicting _ _ (base :: _) => some base
  | _ => none

variable {b : Setup} {s : State jobs}

theorem Valid.owner_of_pass (h : Valid b s) {w : Fin jobs} {id : ℕ}
    (hpass : (s.workers w).pass? = some id) : s.shared.owner = some id := by
  have hmeans := h.means w
  revert hpass hmeans
  cases s.workers w with
  | maintaining other protectedBases => exact fun hpass hmeans ↦ hmeans.1.trans hpass
  | evicting other protectedBases pending => exact fun hpass hmeans ↦ hmeans.1.trans hpass
  | _ => exact fun hpass ↦ by cases hpass

theorem Valid.eq_of_pass (h : Valid b s) {w v : Fin jobs} {id other : ℕ}
    (hw : (s.workers w).pass? = some id) (hv : (s.workers v).pass? = some other) : w = v := by
  have hsame := Option.some.inj ((h.owner_of_pass hw).symm.trans (h.owner_of_pass hv))
  subst hsame
  have hnode : ∀ {v : Fin jobs}, (s.workers v).pass? = some id → (s.workers v).node? = some id := by
    intro v
    cases s.workers v with
    | maintaining other protectedBases => exact fun hpass ↦ hpass
    | evicting other protectedBases pending => exact fun hpass ↦ hpass
    | _ => exact fun hpass ↦ by cases hpass
  exact h.active.alone w v id (hnode hw) (hnode hv)

/-- A removal spares the families of the active nodes. -/
theorem Valid.base_ne_removal (h : Valid b s) {event : Event jobs} {base : Text}
    (hremoval : removal s event = some base) {id : ℕ} (hid : id ∈ s.shared.activeIds) :
    base ≠ b.base id := by
  have hmeans := h.means event.worker
  unfold removal at hremoval
  split at hremoval
  · rename_i owner protectedBases first rest hw
    rw [hw] at hmeans
    obtain rfl := Option.some.inj hremoval
    rintro rfl
    exact hmeans.2.2 _ List.mem_cons_self (hmeans.2.1 id hid)
  · cases hremoval

/-- Evictions spare active nodes: while a maintenance pass is under way no step starts a node and no
other pass is, and no removal is of the family of an active node. Passes are granted in the order in
which nodes queued: the pass under way is that of the node granted last, and in complete runs every
node that queued is granted its pass. -/
theorem evictions_spare_active (hkeys : (p.nodes.map Node.key).Nodup) (hdescribed : p.Described)
    (hplan : p.planSelection holdir selection = .ok c.plan) (failedPrefix : Node → Bool)
    (checkpointsPossible : Bool) (base : Node → Text) :
    let b := setup c (Planner.wellFormed_of_planSelection hkeys hdescribed hplan) failedPrefix
      checkpointsPossible base
    (∀ s, (b.machine jobs).Reachable s →
      (∀ w id, (s.workers w).pass? = some id →
        (∀ event next, b.step s event = some next →
          next.shared.history.started = s.shared.history.started) ∧
        (∀ v, (s.workers v).pass? ≠ none → v = w) ∧
        s.shared.history.granted.getLast? = some id) ∧
      (∀ event family, removal s event = some family →
        ∀ node ∈ c.plan.selected, Active c s node → family ≠ base node) ∧
      s.shared.history.queued = s.shared.history.granted ++ s.shared.queue) ∧
      ∀ states, (b.machine jobs).Complete states → ∀ k id, id ∈ (states k).shared.history.queued →
        ∃ j, k ≤ j ∧ id ∈ (states j).shared.history.granted := by
  refine ⟨fun s hs ↦ ?_, fun states hrun k id hid ↦ ?_⟩
  · have hvalid := valid_of_reachable hs
    refine ⟨fun w id hpass ↦ ?_, fun event family hremoval node hnode hactive ↦ ?_, hvalid.fifo⟩
    · have howner := hvalid.owner_of_pass hpass
      refine ⟨fun event next hnext ↦ hvalid.started_eq hnext (.inr (by simp [howner])),
        fun v hv ↦ ?_, hvalid.last id howner⟩
      obtain ⟨other, hother⟩ := Option.ne_none_iff_exists'.mp hv
      exact hvalid.eq_of_pass hother hpass
    · have hne := hvalid.base_ne_removal hremoval ((hvalid.books.active_iff _).mpr hactive)
      have hbase : (setup c (Planner.wellFormed_of_planSelection hkeys hdescribed hplan) failedPrefix
          checkpointsPossible base).base (c.plan.selected.idxOf node) = base node := by
        show ((c.plan.selected[c.plan.selected.idxOf node]?).map base).getD [] = base node
        rw [List.getElem?_idxOf hnode]
        rfl
      rwa [hbase] at hne
  · obtain ⟨j, hkj, hexited⟩ := exists_exited hrun k
    refine ⟨j, hkj, ?_⟩
    rw [← (valid_of_reachable (hrun.reachable j)).granted_of_exited hexited]
    exact (queued_stays hrun hkj).subset hid

theorem evictions_spare_active_sample :
    removal sampleBuildState ⟨0, sampleInput⟩ = some "old".toList ∧
      ∀ node ∈ sampleBuildContext.plan.selected, Active sampleBuildContext sampleBuildState node →
        "old".toList ≠ node.relativePath := by
  have hremoval : removal sampleBuildState ⟨0, sampleInput⟩ = some "old".toList := by decide +kernel
  have hspared := (evictions_spare_active (by decide +kernel) (by decide +kernel) sampleBuildPlan_eq
    (fun node ↦ node.relativePath = "b.sml".toList) true Node.relativePath).1
      sampleBuildState (Machine.reachable_of_run isSome_sampleEvents)
  exact ⟨hremoval, hspared.2.1 _ _ hremoval⟩

end Holbuild.ParallelBuild
