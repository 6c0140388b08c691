import Holbuild.BuildPlan.InputKeys
import Holbuild.BuildPlan.PlanningOrder

/-!
# Which input keys a change invalidates

Every key that is computed, or taken from an earlier computation, is the hash of the node's action text
with the keys of its dependencies (`computeInputKeysWith_spec`). With an injective hash, two plans of
one shape give a node the same key exactly when neither the node nor any node it depends on has a
different source hash or a different text of extra-input lines (`keys_eq_iff`).
-/

set_option autoImplicit false
set_option relaxedAutoImplicit false

namespace Holbuild.BuildPlan

open Library Relation

/-! ### Well-formed plans -/

namespace Plan

/-- A node depends on another along an edge of the plan. -/
def DependsOn (plan : Plan) (node target : Node) : Prop :=
  node ∈ plan.selected ∧ target ∈ plan.selected ∧
    ∃ edge ∈ graphValues plan.dependencyGraph.resolved node, edge.toNode = target.key

/-- The selected nodes have distinct keys and an index of them, and every edge leads to a node selected
before. -/
structure WellFormed (plan : Plan) : Prop where
  keys : (plan.selected.map Node.key).Nodup
  keyIndex : plan.selectedKeyIndex = buildKeyIndex plan.selected
  ordered : ∀ node ∈ plan.selected, ∀ edge ∈ graphValues plan.dependencyGraph.resolved node,
    ∃ target ∈ plan.selected, target.key = edge.toNode ∧
      plan.selected.idxOf target < plan.selected.idxOf node

variable {plan : Plan} {node target : Node}

/-- A node depends only on nodes selected before it. -/
theorem WellFormed.idxOf_lt (hplan : plan.WellFormed) (h : plan.DependsOn node target) :
    plan.selected.idxOf target < plan.selected.idxOf node := by
  obtain ⟨hnode, htarget, edge, hedge, hkey⟩ := h
  obtain ⟨other, hother, hkey', hlt⟩ := hplan.ordered node hnode edge hedge
  rwa [eq_of_key_eq hplan.keys other hother target htarget (hkey'.trans hkey)] at hlt

end Plan

/-- Plans that planning makes are well formed. -/
theorem Planner.wellFormed_of_planSelection {p : Planner} (hkeys : (p.nodes.map Node.key).Nodup)
    (hdescribed : p.Described) {holdir : Text} {selection : TargetSelection} {plan : Plan}
    (h : p.planSelection holdir selection = .ok plan) : plan.WellFormed := by
  have houtcome := outcome_planSelection hkeys hdescribed holdir selection
  rw [h] at houtcome
  obtain ⟨hroots, -, -, hnodup, hmem, hedges⟩ := houtcome
  have hsub : plan.selected ⊆ p.nodes := fun node hnode ↦
    ((hmem node).mp hnode).mem (targetRoots_subset hroots)
  obtain ⟨roots, -, h⟩ := bind_eq_ok_iff.mp h
  obtain ⟨reachable, -, h⟩ := bind_eq_ok_iff.mp h
  obtain ⟨graph, -, h⟩ := bind_eq_ok_iff.mp h
  obtain ⟨selected, -, h⟩ := bind_eq_ok_iff.mp h
  obtain ⟨-, -, h⟩ := bind_eq_ok_iff.mp h
  obtain ⟨-, -, h⟩ := bind_eq_ok_iff.mp h
  obtain ⟨-, -, h⟩ := bind_eq_ok_iff.mp h
  obtain ⟨adjacency, -, h⟩ := bind_eq_ok_iff.mp h
  refine ⟨?_, ?_, fun node hnode edge hedge ↦ (hedges node hnode).2 edge hedge⟩
  · exact hnodup.map_on fun a ha b hb hab ↦ eq_of_key_eq hkeys a (hsub ha) b (hsub hb) hab
  · rw [← Except.ok.inj h]

namespace KeyContext

variable {c c' : KeyContext} {node : Node}

/-- The nodes a selected node's edges lead to are those it depends on. -/
theorem directProjectDeps_eq_ok (hplan : c.plan.WellFormed) (hnode : node ∈ c.plan.selected) :
    ∃ deps, c.directProjectDeps node = .ok deps ∧
      ∀ dep, dep ∈ deps ↔ c.plan.DependsOn node dep := by
  have hfound : ∀ edge ∈ graphValues c.plan.dependencyGraph.resolved node,
      ∃ target ∈ c.plan.selected, target.key = edge.toNode := by
    intro edge hedge
    obtain ⟨target, htarget, hkey, -⟩ := hplan.ordered node hnode edge hedge
    exact ⟨target, htarget, hkey⟩
  have : Nonempty Node := ⟨node⟩
  choose! target htarget hkey using hfound
  have hsub : (graphValues c.plan.dependencyGraph.resolved node).map target ⊆ c.plan.selected := by
    intro dep hdep
    obtain ⟨edge, hedge, rfl⟩ := List.mem_map.mp hdep
    exact htarget edge hedge
  refine ⟨_, bind_eq_ok_iff.mpr ⟨(graphValues c.plan.dependencyGraph.resolved node).map target,
    mapM_eq_ok fun edge hedge ↦ ?_, rfl⟩, fun dep ↦ ?_⟩
  · refine bind_eq_ok_iff.mpr ⟨c.plan.selected.idxOf (target edge), ?_, ?_⟩
    · rw [hplan.keyIndex, ← hkey edge hedge, indexedKeyId_of_mem hplan.keys (htarget edge hedge)]
    · rw [List.getElem?_idxOf (htarget edge hedge)]
  rw [mem_uniqueNodes (eq_of_key_eq hplan.keys) hsub, List.mem_map]
  constructor
  · rintro ⟨edge, hedge, rfl⟩
    exact ⟨hnode, htarget edge hedge, edge, hedge, (hkey edge hedge).symm⟩
  · rintro ⟨-, hdep, edge, hedge, hsame⟩
    exact ⟨edge, hedge, eq_of_key_eq hplan.keys _ (htarget edge hedge) _ hdep
      ((hkey edge hedge).trans hsame)⟩

/-! ### What a key was computed from -/

/-- The action text of a node from its parts, each dependency with its key. -/
def textFrom (c : KeyContext) (toolchainKey : Text) (configLines : List Text) (deps : List Node)
    (depKey : Node → Text) (inputLines : List Text) (node : Node) : Text :=
  concatWith ['\n'] ({ c with toolchainKey := toolchainKey
                              configLines := fun _ ↦ configLines }.actionLinesWith
    (deps.map fun dep ↦ depText dep (depKey dep)) inputLines node) ++ ['\n']

/-- A node's key is the hash of its action text with the keys of its dependencies. -/
def Computed (c : KeyContext) (keys : InputKeys) (node : Node) : Prop :=
  ∃ deps inputLines, ∃ depKey : Node → Text, c.directProjectDeps node = .ok deps ∧
    c.extraInputLines node = .ok inputLines ∧ (∀ dep ∈ deps, keys dep.key = some (depKey dep)) ∧
      keys node.key = some
        (c.hash (c.textFrom c.toolchainKey (c.configLines node) deps depKey inputLines node))

/-- Every known key is the hash of an action text of the plan's node, with the toolchain,
configuration and dependency keys it was recorded with. -/
def Vouched (c : KeyContext) (cache : KeyCache) : Prop :=
  ∀ node ∈ c.plan.selected, ∀ known, cache.known (c.plan.selected.idxOf node) = some known →
    ∃ deps inputLines, c.directProjectDeps node = .ok deps ∧
      c.extraInputLines node = .ok inputLines ∧
      known.extraInputsKey = c.extraInputsKeyOf inputLines ∧
      ∀ depKey : Node → Text, known.depKeys = deps.map depKey → known.inputKey =
        c.hash (c.textFrom known.toolchainKey known.configLines deps depKey inputLines node)

/-- A plan without known keys has no wrong one. -/
theorem vouched_empty (extraInputsKey : ℕ → Option (Option Text)) :
    c.Vouched ⟨fun _ ↦ none, extraInputsKey⟩ := by
  intro node _ known hknown
  cases hknown

/-- The dependencies' keys as a function of the dependencies. -/
theorem exists_depKey {keys : InputKeys} {deps : List Node} {depKeys : List Text}
    (h : deps.mapM (lookupKey keys) = .ok depKeys) :
    ∃ depKey : Node → Text, depKeys = deps.map depKey ∧
      ∀ dep ∈ deps, keys dep.key = some (depKey dep) := by
  have hsome : ∀ dep ∈ deps, ∃ key, keys dep.key = some key := by
    intro dep hdep
    obtain ⟨key, -, hkey⟩ := exists_result_of_mem h hdep
    unfold lookupKey at hkey
    split at hkey
    next inputKey hfound => exact ⟨inputKey, hfound⟩
    next => cases hkey
  choose! depKey hdepKey using hsome
  refine ⟨depKey, ?_, hdepKey⟩
  have hmap : deps.mapM (lookupKey keys) = .ok (deps.map depKey) := by
    refine mapM_eq_ok fun dep hdep ↦ ?_
    rw [lookupKey, hdepKey dep hdep]
  rw [h, Except.ok.injEq] at hmap
  exact hmap

/-- The action text is put together from the node's own lines and its dependencies' keys. -/
theorem actionTextWith_spec {keys : InputKeys} {text : Text} {inputLines : List Text}
    {deps : List Node} {depKey : Node → Text} (hdeps : c.directProjectDeps node = .ok deps)
    (hkeys : ∀ dep ∈ deps, keys dep.key = some (depKey dep))
    (h : c.actionTextWith keys node = .ok (text, inputLines)) :
    c.extraInputLines node = .ok inputLines ∧
      text = c.textFrom c.toolchainKey (c.configLines node) deps depKey inputLines node := by
  obtain ⟨lines, hlines, h⟩ := bind_eq_ok_iff.mp h
  obtain ⟨deps', hdeps', h⟩ := bind_eq_ok_iff.mp h
  rw [hdeps, Except.ok.injEq] at hdeps'
  subst hdeps'
  obtain ⟨depTexts, htexts, h⟩ := bind_eq_ok_iff.mp h
  have hmap : (deps.mapM fun dep ↦ do
      let inputKey ← lookupKey keys dep
      .ok (depText dep inputKey)) = .ok (deps.map fun dep ↦ depText dep (depKey dep)) := by
    refine mapM_eq_ok fun dep hdep ↦ ?_
    rw [lookupKey, hkeys dep hdep]
    rfl
  rw [hmap, Except.ok.injEq] at htexts
  obtain ⟨htext, rfl⟩ := Prod.mk.inj (Except.ok.inj h)
  refine ⟨hlines, ?_⟩
  rw [← htext, ← htexts]
  rfl

/-- Assumes: vouched known keys. A computed or known key is the hash of the node's action text, and
the known keys stay vouched. -/
theorem inputKeyWith_spec (hplan : c.plan.WellFormed) (hnode : node ∈ c.plan.selected)
    {keys : InputKeys} {cache cache' : KeyCache} {inputKey : Text} (hvouched : c.Vouched cache)
    (h : c.inputKeyWith keys cache node = .ok (inputKey, cache')) :
    c.Vouched cache' ∧ ∃ deps inputLines, ∃ depKey : Node → Text,
      c.directProjectDeps node = .ok deps ∧ c.extraInputLines node = .ok inputLines ∧
      (∀ dep ∈ deps, keys dep.key = some (depKey dep)) ∧ inputKey =
        c.hash (c.textFrom c.toolchainKey (c.configLines node) deps depKey inputLines node) := by
  obtain ⟨id, hid, h⟩ := bind_eq_ok_iff.mp h
  rw [hplan.keyIndex, indexedKeyId_of_mem hplan.keys hnode, Except.ok.injEq] at hid
  obtain ⟨deps, hdeps, h⟩ := bind_eq_ok_iff.mp h
  obtain ⟨depKeys, hdepKeys, h⟩ := bind_eq_ok_iff.mp h
  obtain ⟨depKey, rfl, hkeys⟩ := exists_depKey hdepKeys
  have hfresh : c.freshInputKey keys cache node id (deps.map depKey) = .ok (inputKey, cache') →
      c.Vouched cache' ∧ ∃ deps inputLines, ∃ depKey : Node → Text,
        c.directProjectDeps node = .ok deps ∧ c.extraInputLines node = .ok inputLines ∧
        (∀ dep ∈ deps, keys dep.key = some (depKey dep)) ∧ inputKey =
          c.hash (c.textFrom c.toolchainKey (c.configLines node) deps depKey inputLines node) := by
    intro h
    obtain ⟨⟨text, inputLines⟩, htext, h⟩ := bind_eq_ok_iff.mp h
    obtain ⟨hinputLines, rfl⟩ := actionTextWith_spec hdeps hkeys htext
    obtain ⟨hkey, hcache⟩ := Prod.mk.inj (Except.ok.inj h)
    refine ⟨?_, deps, inputLines, depKey, hdeps, hinputLines, hkeys, hkey.symm⟩
    intro other hother known hknown
    rw [← hcache] at hknown
    by_cases hsame : other = node
    · subst hsame
      simp only [← hid, Function.update_self, Option.some.injEq] at hknown
      subst hknown
      refine ⟨deps, inputLines, hdeps, hinputLines, rfl, fun depKey' hdepKey ↦ ?_⟩
      have heq : ∀ dep ∈ deps, depKey dep = depKey' dep := List.map_inj_left.mp hdepKey
      have htexts : (deps.map fun dep ↦ depText dep (depKey dep)) =
          deps.map fun dep ↦ depText dep (depKey' dep) :=
        List.map_congr_left fun dep hdep ↦ by rw [heq dep hdep]
      rw [textFrom, textFrom, htexts]
    · have hposition : c.plan.selected.idxOf other ≠ id := by
        rw [← hid]
        exact fun heq ↦ hsame ((List.idxOf_inj hother).mp heq)
      simp only [Function.update_of_ne hposition] at hknown
      exact hvouched other hother known hknown
  cases hknown : cache.known id with
  | none =>
    rw [hknown] at h
    exact hfresh h
  | some known =>
    rw [hknown] at h
    dsimp only at h
    by_cases hcurrent : known.toolchainKey = c.toolchainKey ∧ known.configLines = c.configLines node ∧
        known.depKeys = deps.map depKey
    · rw [if_pos hcurrent] at h
      obtain ⟨hkey, hcache⟩ := Prod.mk.inj (Except.ok.inj h)
      rw [← hid] at hknown
      obtain ⟨deps', inputLines, hdeps', hinputLines, -, hcomputed⟩ :=
        hvouched node hnode known hknown
      rw [hdeps, Except.ok.injEq] at hdeps'
      subst hdeps'
      refine ⟨?_, deps, inputLines, depKey, hdeps, hinputLines, hkeys, ?_⟩
      · rw [← hcache]
        exact hvouched
      · rw [← hkey, hcomputed depKey hcurrent.2.2, hcurrent.1, hcurrent.2.1]
    · rw [if_neg hcurrent] at h
      exact hfresh h

/-- Assumes: vouched known keys. Every node's key is the hash of its action text with the keys of its
dependencies, and the known keys stay vouched. -/
theorem computeInputKeysWith_spec (hplan : c.plan.WellFormed) {cache cache' : KeyCache}
    {keys : InputKeys} (hvouched : c.Vouched cache)
    (h : c.computeInputKeysWith cache = .ok (keys, cache')) :
    c.Vouched cache' ∧ ∀ node ∈ c.plan.selected, c.Computed keys node := by
  -- the keys of the nodes done are computed; a node's dependencies are done before it
  have hfold : ∀ (ahead done : List Node) (keys keys' : InputKeys) (cache cache' : KeyCache),
      c.plan.selected = done ++ ahead → c.Vouched cache → (∀ node ∈ done, c.Computed keys node) →
      ahead.foldlM c.addInputKeyWith (keys, cache) = .ok (keys', cache') →
      c.Vouched cache' ∧ ∀ node ∈ c.plan.selected, c.Computed keys' node := by
    intro ahead
    induction ahead with
    | nil =>
      intro done keys keys' cache cache' hselected hvouched hdone hrun
      obtain ⟨rfl, rfl⟩ := Prod.mk.inj (Except.ok.inj hrun)
      rw [List.append_nil] at hselected
      exact ⟨hvouched, hselected ▸ hdone⟩
    | cons node rest ih =>
      intro done keys keys' cache cache' hselected hvouched hdone hrun
      obtain ⟨⟨keys₁, cache₁⟩, hstep, hrest⟩ := bind_eq_ok_iff.mp ((List.foldlM_cons ..).symm.trans hrun)
      obtain ⟨⟨inputKey, cache₂⟩, hkey, hpair⟩ := bind_eq_ok_iff.mp hstep
      obtain ⟨hkeys₁, rfl⟩ := Prod.mk.inj (Except.ok.inj hpair)
      have hnode : node ∈ c.plan.selected := by
        rw [hselected]
        exact List.mem_append_right _ List.mem_cons_self
      obtain ⟨hvouched₁, deps, inputLines, depKey, hdeps, hlines, hdepKeys, hinputKey⟩ :=
        inputKeyWith_spec hplan hnode hvouched hkey
      have hnodup : (done ++ node :: rest).Nodup := hselected ▸ hplan.keys.of_map _
      have hnotDone : node ∉ done := fun hmem ↦
        (List.nodup_append.mp hnodup).2.2 node hmem node List.mem_cons_self rfl
      have hother : ∀ other ∈ c.plan.selected, other ≠ node → keys₁ other.key = keys other.key := by
        intro other hother hne
        rw [← hkeys₁]
        refine Function.update_of_ne (fun hsame ↦ hne ?_) _ _
        exact eq_of_key_eq hplan.keys other hother node hnode hsame
      have hself : ∀ other dep, c.plan.DependsOn other dep → dep = node → other ∉ done := by
        rintro other dep hdepends rfl hmem
        have hlt := hplan.idxOf_lt hdepends
        rw [hselected, List.idxOf_append_of_mem hmem, List.idxOf_append_of_notMem hnotDone] at hlt
        have hle := List.idxOf_lt_length_iff.mpr hmem
        omega
      have hdone' : ∀ other ∈ done ++ [node], c.Computed keys₁ other := by
        intro other hmem
        rcases List.mem_append.mp hmem with hmem | hmem
        · have hotherSelected : other ∈ c.plan.selected := by
            rw [hselected]
            exact List.mem_append_left _ hmem
          obtain ⟨deps', lines', depKey', hdeps', hlines', hkeys', hcomputed⟩ := hdone other hmem
          refine ⟨deps', lines', depKey', hdeps', hlines', fun dep hdep ↦ ?_, ?_⟩
          · obtain ⟨all, hall, hiff⟩ := directProjectDeps_eq_ok hplan hotherSelected
            rw [hdeps', Except.ok.injEq] at hall
            have hdepends := (hiff dep).mp (hall ▸ hdep)
            rw [hother dep hdepends.2.1 fun heq ↦ hself other dep hdepends heq hmem]
            exact hkeys' dep hdep
          · rw [hother other hotherSelected fun heq ↦ hnotDone (heq ▸ hmem)]
            exact hcomputed
        · rw [List.mem_singleton.mp hmem]
          refine ⟨deps, inputLines, depKey, hdeps, hlines, fun dep hdep ↦ ?_, ?_⟩
          · obtain ⟨all, hall, hiff⟩ := directProjectDeps_eq_ok hplan hnode
            rw [hdeps, Except.ok.injEq] at hall
            have hdepends := (hiff dep).mp (hall ▸ hdep)
            have hne : dep ≠ node := fun heq ↦ by
              have hlt := hplan.idxOf_lt hdepends
              rw [heq] at hlt
              exact lt_irrefl _ hlt
            rw [hother dep hdepends.2.1 hne]
            exact hdepKeys dep hdep
          · rw [← hkeys₁, Function.update_self, hinputKey]
      exact ih (done ++ [node]) keys₁ keys' cache₂ cache' (by simpa using hselected) hvouched₁ hdone'
        hrest
  exact hfold c.plan.selected [] _ _ _ _ rfl hvouched
    (fun node hnode ↦ absurd hnode List.not_mem_nil) h

/-! ### Two plans of one shape -/

/-- Two plans over the same selected nodes and dependency edges, with the same toolchain key and
configuration, whose sources declare the same extra inputs and outputs. -/
structure SameShape (c c' : KeyContext) : Prop where
  selected : c.plan.selected = c'.plan.selected
  keyIndex : c.plan.selectedKeyIndex = c'.plan.selectedKeyIndex
  dependencyGraph : c.plan.dependencyGraph = c'.plan.dependencyGraph
  holdir : c.plan.holdir = c'.plan.holdir
  hash : c.hash = c'.hash
  toolchainKey : c.toolchainKey = c'.toolchainKey
  configLines : ∀ node ∈ c.plan.selected, c.configLines node = c'.configLines node
  extraDeps : ∀ node ∈ c.plan.selected, (c.depsOf node).extraDeps = (c'.depsOf node).extraDeps
  extraOutputs : ∀ node ∈ c.plan.selected,
    (c.depsOf node).extraOutputs = (c'.depsOf node).extraOutputs

def isHexDigit (ch : Char) : Bool := ch.isDigit || 'a' ≤ ch && ch ≤ 'f'

/-- The hash is injective and writes hexadecimal digits. -/
structure HexInjective (hash : Text → Text) : Prop where
  injective : Function.Injective hash
  hex : ∀ text, ∀ ch ∈ hash text, isHexDigit ch

theorem HexInjective.newline_notMem {hash : Text → Text} (hhash : HexInjective hash) (text : Text) :
    '\n' ∉ hash text := fun hmem ↦ absurd (hhash.hex text _ hmem) (by decide)

theorem HexInjective.at_notMem {hash : Text → Text} (hhash : HexInjective hash) (text : Text) :
    '@' ∉ hash text := fun hmem ↦ absurd (hhash.hex text _ hmem) (by decide)

/-- The action text with its source hash, extra inputs and dependency keys apart. -/
theorem textFrom_eq (deps : List Node) (depKey : Node → Text) (inputLines : List Text)
    (node : Node) :
    c.textFrom c.toolchainKey (c.configLines node) deps depKey inputLines node =
      terminated (c.headLines node) ++ ("source-sha256=".toList ++ (c.sourceHash node ++
        '\n' :: (terminated (c.policyLines node) ++ ((terminated inputLines ++
          terminated ((c.depsOf node).extraOutputs.map fun output ↦
            "source_extra_output=".toList ++ output) ++
          terminated (deps.map fun dep ↦ "dep=".toList ++ depText dep (depKey dep))) ++
          terminated (((c.directExternalTheories node).map (fun name ↦ "HOL:".toList ++ name) ++
            (c.directExternalLibs node).map fun name ↦ "HOLLIB:".toList ++ name).map fun dep ↦
              "dep=".toList ++ dep))))) := by
  have hne : ({ c with toolchainKey := c.toolchainKey
                       configLines := fun _ ↦ c.configLines node } : KeyContext).actionLinesWith
      (deps.map fun dep ↦ depText dep (depKey dep)) inputLines node ≠ [] := List.cons_ne_nil _ _
  rw [textFrom, concatWith_newline hne]
  have hlines : ({ c with toolchainKey := c.toolchainKey
                          configLines := fun _ ↦ c.configLines node } : KeyContext).actionLinesWith
      (deps.map fun dep ↦ depText dep (depKey dep)) inputLines node =
        c.actionLinesWith (deps.map fun dep ↦ depText dep (depKey dep)) inputLines node := rfl
  rw [hlines, actionLinesWith]
  simp [Function.comp_def]

/-- Two action texts of a node are equal exactly when its source hash, its text of extra-input lines
and the keys of its dependencies are. -/
theorem textFrom_eq_iff (hsame : SameShape c c') (hhash : HexInjective c.hash)
    (hnode : node ∈ c.plan.selected) {deps : List Node} {depKey depKey' : Node → Text}
    {lines lines' : List Text} (hkey : ∀ dep ∈ deps, '@' ∉ depKey dep ∧ '@' ∉ depKey' dep) :
    c.textFrom c.toolchainKey (c.configLines node) deps depKey lines node =
        c'.textFrom c'.toolchainKey (c'.configLines node) deps depKey' lines' node ↔
      c.sourceHash node = c'.sourceHash node ∧ terminated lines = terminated lines' ∧
        ∀ dep ∈ deps, depKey dep = depKey' dep := by
  have hhead : c'.headLines node = c.headLines node := by
    rw [headLines, headLines, hsame.toolchainKey]
  have hpolicy : c'.policyLines node = c.policyLines node := by
    rw [policyLines, policyLines, toolchainSourceName, toolchainSourceName, hsame.holdir,
      hsame.configLines node hnode]
  have htheories : c'.directExternalTheories node = c.directExternalTheories node := by
    rw [directExternalTheories, directExternalTheories, hsame.dependencyGraph]
  have hlibs : c'.directExternalLibs node = c.directExternalLibs node := by
    rw [directExternalLibs, directExternalLibs, hsame.dependencyGraph]
  rw [textFrom_eq, textFrom_eq, hhead, hpolicy, htheories, hlibs,
    ← hsame.extraOutputs node hnode, List.append_right_inj, List.append_right_inj]
  have hsource : '\n' ∉ c.sourceHash node ∧ '\n' ∉ c'.sourceHash node := by
    refine ⟨hhash.newline_notMem _, ?_⟩
    rw [sourceHash, ← hsame.hash]
    exact hhash.newline_notMem _
  have hdepLine : ∀ depKey : Node → Text, (deps.map fun dep ↦
      "dep=".toList ++ depText dep (depKey dep)) = deps.map fun dep ↦
        ("dep=".toList ++ dep.package ++ ':' :: dep.logicalName) ++ '@' :: depKey dep := by
    intro depKey
    refine List.map_congr_left fun dep _ ↦ ?_
    simp [depText]
  constructor
  · intro htext
    obtain ⟨hhashes, hrest⟩ := append_sep_inj hsource.1 hsource.2 htext
    rw [List.append_right_inj, List.append_left_inj] at hrest
    rw [hdepLine, hdepLine] at hrest
    -- each dependency with its key in one plan and in the other
    let entries := deps.map fun dep ↦ (dep, depKey dep, depKey' dep)
    have hmap : ∀ value : Node × Text × Text → Text, (entries.map fun entry ↦
        ("dep=".toList ++ entry.1.package ++ ':' :: entry.1.logicalName) ++ '@' :: value entry) =
          deps.map fun dep ↦ ("dep=".toList ++ dep.package ++ ':' :: dep.logicalName) ++
            '@' :: value (dep, depKey dep, depKey' dep) := by
      intro value
      rw [List.map_map]
      rfl
    rw [← hmap fun entry ↦ entry.2.1, ← hmap fun entry ↦ entry.2.2] at hrest
    have hsep : ∀ entry ∈ entries, '@' ∉ entry.2.1 ∧ '@' ∉ entry.2.2 := by
      intro entry hentry
      obtain ⟨dep, hdep, rfl⟩ := List.mem_map.mp hentry
      exact hkey dep hdep
    obtain ⟨hlines, hkeys⟩ := @terminated_values_inj Node
      (fun dep ↦ "dep=".toList ++ dep.package ++ ':' :: dep.logicalName) '@' entries _ _ hsep hrest
    refine ⟨hhashes, List.append_cancel_right hlines, fun dep hdep ↦ ?_⟩
    exact hkeys _ (List.mem_map_of_mem hdep)
  · rintro ⟨hhashes, hlines, hkeys⟩
    have hdeps : (deps.map fun dep ↦ "dep=".toList ++ depText dep (depKey dep)) =
        deps.map fun dep ↦ "dep=".toList ++ depText dep (depKey' dep) :=
      List.map_congr_left fun dep hdep ↦ by rw [hkeys dep hdep]
    rw [hhashes, hlines, hdeps]

/-- The text of a node's extra-input lines. -/
def inputText (c : KeyContext) (node : Node) : Except PlanError Text :=
  (c.extraInputLines node).map terminated

/-- The difference of two plans at a node that its action text shows. -/
def Visible (c c' : KeyContext) (node : Node) : Prop :=
  c.sourceHash node ≠ c'.sourceHash node ∨ c.inputText node ≠ c'.inputText node

theorem SameShape.directProjectDeps_eq (hsame : SameShape c c') (node : Node) :
    c'.directProjectDeps node = c.directProjectDeps node := by
  rw [directProjectDeps, directProjectDeps, hsame.dependencyGraph, hsame.keyIndex, hsame.selected]

/-- Computed keys are hashes. -/
theorem Computed.exists_hash {keys : InputKeys} (h : c.Computed keys node) {key : Text}
    (hkey : keys node.key = some key) : ∃ text, key = c.hash text := by
  obtain ⟨deps, inputLines, depKey, -, -, -, hcomputed⟩ := h
  rw [hkey, Option.some.injEq] at hcomputed
  exact ⟨_, hcomputed⟩

/-- The keys of a node are equal exactly when nothing it needs, itself included, shows a
difference. -/
theorem keys_eq_iff (hplan : c.plan.WellFormed) (hsame : SameShape c c')
    (hhash : HexInjective c.hash) {keys keys' : InputKeys}
    (hkeys : ∀ node ∈ c.plan.selected, c.Computed keys node)
    (hkeys' : ∀ node ∈ c.plan.selected, c'.Computed keys' node) :
    ∀ node ∈ c.plan.selected, keys node.key = keys' node.key ↔
      ∀ m, ReflTransGen c.plan.DependsOn node m → ¬ Visible c c' m := by
  -- along the selected order, in which a node's dependencies come first
  intro node
  induction hposition : c.plan.selected.idxOf node using Nat.strong_induction_on generalizing node with
  | _ position ih =>
    intro hnode
    obtain ⟨deps, lines, depKey, hdeps, hlines, hdepKeys, hcomputed⟩ := hkeys node hnode
    obtain ⟨deps', lines', depKey', hdeps', hlines', hdepKeys', hcomputed'⟩ := hkeys' node hnode
    rw [hsame.directProjectDeps_eq, hdeps, Except.ok.injEq] at hdeps'
    subst hdeps'
    obtain ⟨all, hall, hdepends⟩ := directProjectDeps_eq_ok hplan hnode
    rw [hdeps, Except.ok.injEq] at hall
    subst hall
    have hat : ∀ dep ∈ deps, '@' ∉ depKey dep ∧ '@' ∉ depKey' dep := by
      intro dep hdep
      have hselected := ((hdepends dep).mp hdep).2.1
      obtain ⟨text, htext⟩ := (hkeys dep hselected).exists_hash (hdepKeys dep hdep)
      obtain ⟨text', htext'⟩ := (hkeys' dep hselected).exists_hash (hdepKeys' dep hdep)
      rw [htext, htext', ← hsame.hash]
      exact ⟨hhash.at_notMem _, hhash.at_notMem _⟩
    have hvisible : ¬ Visible c c' node ↔
        c.sourceHash node = c'.sourceHash node ∧ terminated lines = terminated lines' := by
      rw [Visible, inputText, inputText, hlines, hlines', not_or, not_not, not_not]
      exact and_congr_right fun _ ↦ ⟨Except.ok.inj, congrArg Except.ok⟩
    have hdepsEq : ∀ dep ∈ deps, depKey dep = depKey' dep ↔
        ∀ m, ReflTransGen c.plan.DependsOn dep m → ¬ Visible c c' m := by
      intro dep hdep
      have hdependsOn := (hdepends dep).mp hdep
      have hlt := hplan.idxOf_lt hdependsOn
      rw [← ih _ (hposition ▸ hlt) dep rfl hdependsOn.2.1, hdepKeys dep hdep, hdepKeys' dep hdep,
        Option.some.injEq]
    rw [hcomputed, hcomputed', Option.some.injEq, ← hsame.hash, hhash.injective.eq_iff,
      textFrom_eq_iff hsame hhash hnode hat, ← and_assoc, ← hvisible]
    constructor
    · rintro ⟨hself, hrest⟩ m hreach
      rcases ReflTransGen.cases_head hreach with rfl | ⟨dep, hfirst, hreach⟩
      · exact hself
      · have hdep := (hdepends dep).mpr hfirst
        exact (hdepsEq dep hdep).mp (hrest dep hdep) m hreach
    · intro h
      refine ⟨h node .refl, fun dep hdep ↦ (hdepsEq dep hdep).mpr fun m hreach ↦ ?_⟩
      exact h m (.head ((hdepends dep).mp hdep) hreach)

end KeyContext

end Holbuild.BuildPlan
