import Holbuild.BuildPlan.Invalidation
import Holbuild.Library.Fields
import Holbuild.Library.Frontier
import Holbuild.RemoteExec.Formats

/-!
# Exported batches

A build that runs remotely exports the theories that the remote cache lacks as a batch: an action for each,
and an edge from it to each of the nearest theories of the batch that it depends on. Theories built here
stay out if what depends on them finds them in the remote cache, to which they are published; the others join
the batch.

Every theory that a theory of the batch depends on is in the batch, with a way of edges to it, or the remote
cache has an entry for it (`uncached_or_held`, `transGen_uncachedParents`). The coordinator reads the batch
as it was written exactly if every theory sent has a name of the form it expects
(`batch_selfContained_iff`): the client refuses only the spaces and control characters of ASCII in names,
so a package with another space in its name makes a batch that is refused (`spaced_batch_refused`).
-/

set_option autoImplicit false
set_option relaxedAutoImplicit false

namespace Holbuild.ActionBatch

open Library Relation BuildPlan

/-! ### What is exported -/

/-- Why nothing is exported. -/
inductive ExportError
  | rejected (message : Text)
  | planning (error : PlanError)
deriving DecidableEq, Repr

/-- A plan with the input keys of its nodes, what a build asks for, and what it finds: why a theory cannot
run remotely, whether its metadata shows that it was built here, whether the remote cache satisfies it at the
first look, at a second one and after it was published, whether the local cache does, its spec, and whether
its files are uploaded. No two actions of the plan have texts of one hash. -/
structure Export where
  context : KeyContext
  wellFormed : context.plan.WellFormed
  keys : InputKeys
  hash_sha256 : ∀ text, RemoteExec.isSha256 (String.ofList (context.hash text))
  hash_injOn : Set.InjOn context.hash {text | ∃ node ∈ context.plan.selected, ∃ inputLines,
    context.actionTextWith keys node = .ok (text, inputLines)}
  online : Bool
  remote : Bool
  tracing : Bool
  useCache : Bool
  upload : Bool
  localResumable : Bool
  forced : List Text
  toolchainLine : Except Text Text
  excludedReason : Node → Option Text
  metadataSatisfies : Node → Bool
  satisfiesFirst : Node → Bool
  satisfiesAgain : Node → Bool
  localSatisfies : Node → Bool
  satisfiesPublished : Node → Bool
  specText : Node → Text → Except Text Text
  uploaded : Node → Bool

/-- What may not stand in a word of a spec. -/
def isSpaceOrControl (c : Char) : Bool := c.toNat ≤ 32 ∨ c.toNat = 127

def quote (text : Text) : Text :=
  '\'' :: (text.flatMap fun c ↦ if c = '\'' then "'\\''".toList else [c]) ++ ['\'']

/-- A word of a spec. -/
def specToken (context text : Text) : Except ExportError Text :=
  if text ≠ [] ∧ !text.any isSpaceOrControl then .ok text
  else .error (.rejected ("action-spec: ".toList ++ context ++ " can't run remotely: ".toList ++ quote text ++
    " is empty or contains whitespace".toList))

/-- How a batch names a theory. -/
def theoryName (node : Node) : Text := node.package ++ ':' :: node.logicalName

def isTheoryNode (node : Node) : Bool := node.source.kind = .theoryScript

def actionBatchHeader : Text := "holbuild-action-batch-v1".toList

namespace Export

variable (e : Export)

def plan : Plan := e.context.plan

/-- The nodes that a selected node depends on directly. -/
def deps (node : Node) : List Node :=
  if node ∈ e.plan.selected then (e.context.directProjectDeps node).toOption.getD [] else []

/-- The input key that planning computed for a node. -/
def keyOf (node : Node) : Text := (e.keys node.key).getD []

/-- How the remote cache names the entry of a key. -/
def remoteActionKey (key : Text) : Text :=
  e.context.hash ("holbuild-remote-ac-v1\n".toList ++ key ++ ['\n'])

/-- The length of the longest way through the plan. -/
def fuel : ℕ := e.plan.selected.length + 1

def transitiveProjectDeps (node : Node) : List Node := reached e.deps e.fuel (e.deps node)

def theories : List Node := e.plan.selected.filter isTheoryNode

def isForced (node : Node) : Bool := e.keyOf node ∈ e.forced

/-- Whether a theory needs no worker because it was built here. -/
def builtHere (node : Node) : Bool := e.localResumable && !e.isForced node && e.metadataSatisfies node

def hereActions : List Node := e.theories.filter e.builtHere

def otherActions : List Node := e.theories.filter fun node ↦ !e.builtHere node

/-- The theories not built here that the remote cache lacks, or that are forced. -/
def firstUncached : List Node := e.otherActions.filter fun node ↦ !(!e.isForced node && e.satisfiesFirst node)

/-- What these depend on. -/
def batchDeps : List Node := e.firstUncached.flatMap e.transitiveProjectDeps

/-- Whether a theory built here is in the remote cache, or is published to it. -/
def available (node : Node) : Bool :=
  e.satisfiesAgain node || (e.upload && e.localSatisfies node && e.satisfiesPublished node)

def unavailable : List Node := (e.hereActions.filter (· ∈ e.batchDeps)).filter fun node ↦ !e.available node

/-- The theories of the batch. -/
def uncachedActions : List Node :=
  if e.unavailable = [] then e.firstUncached
  else e.theories.filter (· ∈ e.firstUncached ++ e.unavailable)

def uncached (node : Node) : Bool := node ∈ e.uncachedActions

/-- The nearest theories of the batch that a node depends on. -/
def uncachedParents (node : Node) : List Node :=
  frontier e.deps (fun dep ↦ isTheoryNode dep && e.uncached dep) e.fuel (e.deps node)

/-- The words of an action's line. -/
def actionWords (node : Node) (spec : Text) : List Text :=
  ["action".toList, e.keyOf node, e.remoteActionKey (e.keyOf node), e.context.hash spec, theoryName node]

/-- The words of an edge's line. -/
def edgeWords (node parent : Node) : List Text := ["edge".toList, e.keyOf node, e.keyOf parent]

def actionLine (node : Node) (spec : Text) : Text := concatWith [' '] (e.actionWords node spec)

def edgeLine (node parent : Node) : Text := concatWith [' '] (e.edgeWords node parent)

/-- The spec of an action, of which only the words that identify its source are checked here. -/
def actionSpecText (node : Node) (actionText : Text) : Except ExportError Text := do
  let _ ← specToken (theoryName node) (theoryName node)
  let _ ← specToken (theoryName node) node.package
  let _ ← specToken (theoryName node) node.relativePath
  (e.specText node actionText).mapError .rejected

/-- Whether an action's text hashes to the key of its node. -/
def checkKey (node : Node) (actionText : Text) : Except ExportError Unit :=
  if e.context.hash actionText = e.keyOf node then .ok ()
  else .error (.rejected ("internal error: action text of ".toList ++ node.logicalName ++
    " does not hash to its input key".toList))

/-- The lines of an action and its edges. -/
def exportLines (node : Node) : Except ExportError (List Text) := do
  let action ← (e.context.actionTextWith e.keys node).mapError .planning
  let _ ← e.checkKey node action.1
  let spec ← e.actionSpecText node action.1
  .ok (e.actionLine node spec :: (e.uncachedParents node).map (e.edgeLine node))

/-- The first theory that cannot run remotely. -/
def excluded : Option (Node × Text) :=
  e.theories.findSome? fun node ↦ (e.excludedReason node).map fun reason ↦ (node, reason)

/-- The checks that come before any theory is looked at. -/
def checkOptions : Except ExportError Unit :=
  if e.upload ∧ !e.online then
    .error (.rejected ("offline: cannot upload action specs; run once without --offline " ++
      "(and unset HOLBUILD_OFFLINE) to prepare it").toList)
  else if !e.remote then
    .error (.rejected "action-spec needs a remote cache: pass --remote-cache URL".toList)
  else if e.tracing then
    .error (.rejected
      "action-spec: tracing-kernel actions key on the exact HOL executable and stay local".toList)
  else if !e.useCache then
    .error (.rejected
      "action-spec: a remote action's result is its cache entry, so --no-cache can't apply".toList)
  else match e.excluded with
    | some (node, reason) => .error (.rejected ("action-spec: ".toList ++ theoryName node ++
        " can't run remotely: ".toList ++ reason))
    | none => .ok ()

/-- The batch, or why nothing is exported. -/
def exportActionSpecs : Except ExportError Text := do
  let _ ← e.checkOptions
  let _ ← e.toolchainLine.mapError .rejected
  let lines ← e.uncachedActions.mapM e.exportLines
  if e.upload ∧ e.uncachedActions.any (fun node ↦ !e.uploaded node) then
    .error (.rejected "could not upload".toList)
  else .ok (concatWith ['\n'] (actionBatchHeader :: lines.flatten) ++ ['\n'])

/-- Whether the remote cache had an entry for a theory when the export looked last. -/
def remoteHeld (node : Node) : Bool := if e.builtHere node then e.available node else e.satisfiesFirst node

/-! ### Dependencies -/

variable {e : Export} {node dep : Node}

theorem mem_deps : dep ∈ e.deps node ↔ e.plan.DependsOn node dep := by
  unfold deps
  split_ifs with hnode
  · obtain ⟨deps, hdeps, hmem⟩ := KeyContext.directProjectDeps_eq_ok e.wellFormed hnode
    rw [hdeps]
    exact hmem dep
  · exact ⟨fun h ↦ absurd h List.not_mem_nil, fun h ↦ absurd h.1 hnode⟩

theorem deps_eq_dependsOn : (fun a b ↦ b ∈ e.deps a) = e.plan.DependsOn := by
  ext a b
  exact mem_deps

/-- Dependencies are selected before what depends on them. -/
theorem idxOf_lt_of_mem_deps :
    ∀ a, ∀ b ∈ e.deps a, e.plan.selected.idxOf b < e.plan.selected.idxOf a :=
  fun _ _ hb ↦ e.wellFormed.idxOf_lt (mem_deps.mp hb)

theorem idxOf_lt_fuel (roots : List Node) : ∀ root ∈ roots, e.plan.selected.idxOf root < e.fuel :=
  fun _ _ ↦ Nat.lt_succ_of_le List.idxOf_le_length

theorem mem_transitiveProjectDeps :
    dep ∈ e.transitiveProjectDeps node ↔ TransGen e.plan.DependsOn node dep := by
  rw [transitiveProjectDeps, mem_reached_iff idxOf_lt_of_mem_deps (idxOf_lt_fuel _), deps_eq_dependsOn,
    TransGen.head'_iff]
  simp only [mem_deps]

theorem mem_selected_of_transGen (h : TransGen e.plan.DependsOn node dep) :
    node ∈ e.plan.selected ∧ dep ∈ e.plan.selected := by
  induction h with
  | single h => exact ⟨h.1, h.2.1⟩
  | tail _ h ih => exact ⟨ih.1, h.2.1⟩

/-- Whatever a node depends on is selected before it. -/
theorem idxOf_lt_of_transGen (h : TransGen e.plan.DependsOn node dep) :
    e.plan.selected.idxOf dep < e.plan.selected.idxOf node := by
  induction h with
  | single h => exact e.wellFormed.idxOf_lt h
  | tail _ h ih => exact (e.wellFormed.idxOf_lt h).trans ih

/-! ### The theories of the batch -/

theorem mem_theories : node ∈ e.theories ↔ node ∈ e.plan.selected ∧ isTheoryNode node := List.mem_filter

theorem firstUncached_subset : e.firstUncached ⊆ e.theories := fun _ h ↦
  List.mem_of_mem_filter (List.mem_of_mem_filter h)

theorem mem_unavailable : node ∈ e.unavailable ↔
    (node ∈ e.hereActions ∧ node ∈ e.batchDeps) ∧ e.available node = false := by
  simp [unavailable, and_assoc, and_comm]

theorem mem_uncachedActions :
    node ∈ e.uncachedActions ↔ node ∈ e.firstUncached ∨ node ∈ e.unavailable := by
  have hsub : e.unavailable ⊆ e.theories := fun _ h ↦
    List.mem_of_mem_filter (List.mem_of_mem_filter (List.mem_of_mem_filter h))
  unfold uncachedActions
  split_ifs with hnone
  · simp [hnone]
  · rw [List.mem_filter, decide_eq_true_eq, List.mem_append, and_iff_right_iff_imp]
    exact fun h ↦ h.elim (firstUncached_subset ·) (hsub ·)

theorem mem_theories_of_uncached (h : node ∈ e.uncachedActions) : node ∈ e.theories := by
  rcases mem_uncachedActions.mp h with h | h
  · exact firstUncached_subset h
  · exact List.mem_of_mem_filter (mem_unavailable.mp h).1.1

/-- Theories are exported in the plan's order. -/
theorem sublist_uncachedActions : e.uncachedActions.Sublist e.plan.selected := by
  unfold uncachedActions
  split_ifs
  · exact (List.filter_sublist.trans List.filter_sublist).trans List.filter_sublist
  · exact List.filter_sublist.trans List.filter_sublist

theorem nodup_uncachedActions : e.uncachedActions.Nodup :=
  sublist_uncachedActions.nodup (e.wellFormed.keys.of_map _)

/-- What a theory of the batch depends on, the batch's first theories depend on. -/
theorem mem_batchDeps (hnode : node ∈ e.uncachedActions) (h : TransGen e.plan.DependsOn node dep) :
    dep ∈ e.batchDeps := by
  rcases mem_uncachedActions.mp hnode with hfirst | hlate
  · exact List.mem_flatMap.mpr ⟨node, hfirst, mem_transitiveProjectDeps.mpr h⟩
  · obtain ⟨first, hfirst, hmem⟩ := List.mem_flatMap.mp (mem_unavailable.mp hlate).1.2
    have hway := (mem_transitiveProjectDeps.mp hmem).trans h
    exact List.mem_flatMap.mpr ⟨first, hfirst, mem_transitiveProjectDeps.mpr hway⟩

/-- A theory that was not built here and that the remote cache lacks is exported. -/
theorem mem_uncachedActions_of_other (hdep : dep ∈ e.theories) (hhere : e.builtHere dep = false)
    (hheld : e.remoteHeld dep = false) : dep ∈ e.uncachedActions := by
  rw [remoteHeld, hhere] at hheld
  have hlacks : e.satisfiesFirst dep = false := hheld
  refine mem_uncachedActions.mpr (.inl (List.mem_filter.mpr ⟨List.mem_filter.mpr ⟨hdep, ?_⟩, ?_⟩))
  · rw [hhere]
    rfl
  · rw [hlacks, Bool.and_false]
    rfl

/-- A theory that a theory of the batch depends on is in the batch, or the remote cache has it. -/
theorem uncached_or_held (hnode : node ∈ e.uncachedActions) (h : TransGen e.plan.DependsOn node dep)
    (htheory : isTheoryNode dep) : dep ∈ e.uncachedActions ∨ e.remoteHeld dep := by
  have hdep : dep ∈ e.theories := mem_theories.mpr ⟨(mem_selected_of_transGen h).2, htheory⟩
  cases hheld : e.remoteHeld dep with
  | true => exact .inr rfl
  | false =>
    left
    cases hhere : e.builtHere dep with
    | false => exact mem_uncachedActions_of_other hdep hhere hheld
    | true =>
      rw [remoteHeld, hhere] at hheld
      have hhereAction : dep ∈ e.hereActions := List.mem_filter.mpr ⟨hdep, hhere⟩
      exact mem_uncachedActions.mpr (.inr (mem_unavailable.mpr
        ⟨⟨hhereAction, mem_batchDeps hnode h⟩, hheld⟩))

/-! ### The edges of the batch -/

/-- The parents of a theory are theories of the batch that it depends on, each once, and one is on the way to
any theory of the batch that it depends on. -/
theorem uncachedParents_spec (e : Export) (node : Node) : (e.uncachedParents node).Nodup ∧
    (∀ parent ∈ e.uncachedParents node,
      parent ∈ e.uncachedActions ∧ TransGen e.plan.DependsOn node parent) ∧
    ∀ dep ∈ e.uncachedActions, TransGen e.plan.DependsOn node dep →
      ∃ parent ∈ e.uncachedParents node, ReflTransGen e.plan.DependsOn parent dep := by
  have hspec := @frontier_spec Node _ e.deps (fun dep ↦ isTheoryNode dep && e.uncached dep)
    e.plan.selected.idxOf (e.deps node) idxOf_lt_of_mem_deps e.fuel (idxOf_lt_fuel _)
  rw [deps_eq_dependsOn] at hspec
  obtain ⟨hnodup, hmarked, hway⟩ := hspec
  refine ⟨hnodup, fun parent hparent ↦ ?_, fun dep hdep htrans ↦ ?_⟩
  · obtain ⟨huncached, root, hroot, hrest⟩ := hmarked parent hparent
    rw [Bool.and_eq_true, uncached, decide_eq_true_eq] at huncached
    exact ⟨huncached.2, .head' (mem_deps.mp hroot) hrest⟩
  · obtain ⟨root, hroot, hrest⟩ := TransGen.head'_iff.mp htrans
    refine hway dep ?_ ⟨root, mem_deps.mpr hroot, hrest⟩
    rw [Bool.and_eq_true, uncached, decide_eq_true_eq]
    exact ⟨(mem_theories.mp (mem_theories_of_uncached hdep)).2, hdep⟩

/-- From a theory of the batch, parents lead to any other theory of the batch that it depends on. -/
theorem transGen_uncachedParents (hdep : dep ∈ e.uncachedActions) (hnode : node ∈ e.uncachedActions)
    (h : TransGen e.plan.DependsOn node dep) :
    TransGen (fun a b ↦ a ∈ e.uncachedActions ∧ b ∈ e.uncachedParents a) node dep := by
  -- along the selected order, in which parents come first
  induction hposition : e.plan.selected.idxOf node using Nat.strong_induction_on generalizing node with
  | _ position ih =>
    obtain ⟨-, hparents, hway⟩ := e.uncachedParents_spec node
    obtain ⟨parent, hparent, hrest⟩ := hway dep hdep h
    obtain ⟨huncached, hdepends⟩ := hparents parent hparent
    rcases reflTransGen_iff_eq_or_transGen.mp hrest with rfl | hrest
    · exact .single ⟨hnode, hparent⟩
    · have hlt := idxOf_lt_of_transGen hdepends
      exact .head ⟨hnode, hparent⟩ (ih _ (by omega) huncached hrest rfl)

/-! ### What an exported batch says -/

/-- What is known of a theory that was exported with a spec. -/
structure Exported (e : Export) (spec : Node → Text) (node : Node) : Prop where
  hashed : ∃ text inputLines, e.context.actionTextWith e.keys node = .ok (text, inputLines) ∧
    e.context.hash text = e.keyOf node
  name : ∀ c ∈ theoryName node, isSpaceOrControl c = false
  path : ∀ c ∈ node.relativePath, isSpaceOrControl c = false
  lines : e.exportLines node =
    .ok (e.actionLine node (spec node) :: (e.uncachedParents node).map (e.edgeLine node))

end Export

theorem plain_of_specToken {context text word : Text} (h : specToken context text = .ok word) :
    ∀ c ∈ text, isSpaceOrControl c = false := by
  rw [specToken] at h
  split_ifs at h with hplain
  rw [Bool.not_eq_true', List.any_eq_false] at hplain
  exact fun c hc ↦ Bool.eq_false_iff.mpr (hplain.2 c hc)

namespace Export

variable {e : Export} {node other dep : Node} {spec : Node → Text}

theorem exists_exported {lines : List Text} (h : e.exportLines node = .ok lines) :
    ∃ text, lines = e.actionLine node text :: (e.uncachedParents node).map (e.edgeLine node) ∧
      ∀ spec : Node → Text, spec node = text → e.Exported spec node := by
  have hlines := h
  obtain ⟨⟨text, inputLines⟩, htext, h⟩ := bind_eq_ok_iff.mp h
  obtain ⟨_, hhash, h⟩ := bind_eq_ok_iff.mp h
  obtain ⟨specText, hspec, h⟩ := bind_eq_ok_iff.mp h
  obtain ⟨_, hname, hspec⟩ := bind_eq_ok_iff.mp hspec
  obtain ⟨-, -, hspec⟩ := bind_eq_ok_iff.mp hspec
  obtain ⟨_, hpath, -⟩ := bind_eq_ok_iff.mp hspec
  obtain rfl := Except.ok.inj h
  refine ⟨specText, rfl, fun spec hspec ↦ ⟨⟨text, inputLines, ?_, ?_⟩, plain_of_specToken hname,
    plain_of_specToken hpath, ?_⟩⟩
  · cases haction : e.context.actionTextWith e.keys node with
    | ok action =>
      rw [haction] at htext
      rw [Except.ok.inj htext]
    | error error =>
      rw [haction] at htext
      cases htext
  · rw [checkKey] at hhash
    split_ifs at hhash with hkey
    exact hkey
  · rw [hspec]
    exact hlines

/-- The lines of a batch after the first. -/
def batchLines (e : Export) (spec : Node → Text) (nodes : List Node) : List Text :=
  nodes.flatMap fun node ↦
    e.actionLine node (spec node) :: (e.uncachedParents node).map (e.edgeLine node)

/-- A batch lists its theories, each with its edges. -/
theorem exportActionSpecs_spec {text : Text} (h : e.exportActionSpecs = .ok text) :
    ∃ spec : Node → Text, (∀ node ∈ e.uncachedActions, e.Exported spec node) ∧
      text = terminated (actionBatchHeader :: e.batchLines spec e.uncachedActions) := by
  obtain ⟨-, -, h⟩ := bind_eq_ok_iff.mp h
  obtain ⟨-, -, h⟩ := bind_eq_ok_iff.mp h
  obtain ⟨lines, hlines, h⟩ := bind_eq_ok_iff.mp h
  have hexported : ∀ node, ∃ text, node ∈ e.uncachedActions →
      ∀ spec : Node → Text, spec node = text → e.Exported spec node := by
    intro node
    by_cases hnode : node ∈ e.uncachedActions
    · obtain ⟨own, -, hown⟩ := exists_result_of_mem hlines hnode
      obtain ⟨text, -, htext⟩ := exists_exported hown
      exact ⟨text, fun _ ↦ htext⟩
    · exact ⟨[], fun h ↦ absurd h hnode⟩
  choose spec hspec using hexported
  refine ⟨spec, fun node hnode ↦ hspec node hnode spec rfl, ?_⟩
  have hall := mapM_eq_ok fun node hnode ↦ (hspec node hnode spec rfl).lines
  rw [hall, Except.ok.injEq] at hlines
  rw [← eq_of_ite_error_eq_ok h, concatWith_newline (List.cons_ne_nil _ _), ← hlines]
  rfl

/-- An action's text begins with what identifies its node. -/
theorem exists_head {c : KeyContext} {keys : InputKeys} {text : Text} {inputLines : List Text}
    (h : c.actionTextWith keys node = .ok (text, inputLines)) :
    ∃ rest, text = terminated (c.headLines node) ++ rest := by
  obtain ⟨own, -, h⟩ := bind_eq_ok_iff.mp h
  obtain ⟨deps, -, h⟩ := bind_eq_ok_iff.mp h
  obtain ⟨depTexts, -, h⟩ := bind_eq_ok_iff.mp h
  obtain ⟨rfl, -⟩ := Prod.mk.inj (Except.ok.inj h)
  have hne : c.actionLinesWith depTexts own node ≠ [] := List.cons_ne_nil _ _
  rw [concatWith_newline hne, KeyContext.actionLinesWith]
  simp only [List.append_assoc, terminated_append]
  exact ⟨_, rfl⟩

theorem newline_notMem {text : Text} (h : ∀ c ∈ text, isSpaceOrControl c = false) : '\n' ∉ text :=
  fun hmem ↦ absurd (h _ hmem) (by decide)

/-- Exported theories have distinct keys. -/
theorem eq_of_keyOf_eq (hnode : e.Exported spec node) (hother : e.Exported spec other)
    (hmem : node ∈ e.theories) (hmem' : other ∈ e.theories) (h : e.keyOf node = e.keyOf other) :
    node = other := by
  obtain ⟨hselected, htheory⟩ := mem_theories.mp hmem
  obtain ⟨hselected', htheory'⟩ := mem_theories.mp hmem'
  obtain ⟨text, inputLines, htext, hhash⟩ := hnode.hashed
  obtain ⟨text', inputLines', htext', hhash'⟩ := hother.hashed
  have hsame : text = text' := e.hash_injOn ⟨node, hselected, inputLines, htext⟩
    ⟨other, hselected', inputLines', htext'⟩ (by rw [hhash, hhash', h])
  obtain ⟨rest, rfl⟩ := exists_head htext
  obtain ⟨rest', rfl⟩ := exists_head htext'
  have hkind : node.source.kind = other.source.kind :=
    (of_decide_eq_true htheory).trans (of_decide_eq_true htheory').symm
  have hpackage : ∀ {n : Node}, e.Exported spec n → '\n' ∉ n.package ∧ '\n' ∉ n.logicalName := by
    intro n hn
    have hname := newline_notMem hn.name
    rw [theoryName, List.mem_append, List.mem_cons, not_or, not_or] at hname
    exact ⟨hname.1, hname.2.2⟩
  simp only [KeyContext.headLines, hkind, terminated_cons, terminated_nil, List.append_assoc,
    List.cons_append, List.nil_append, List.append_right_inj, List.cons.injEq, true_and] at hsame
  obtain ⟨hp, hsame⟩ := append_sep_inj (hpackage hnode).1 (hpackage hother).1 hsame
  rw [List.append_right_inj] at hsame
  obtain ⟨hl, hsame⟩ := append_sep_inj (hpackage hnode).2 (hpackage hother).2 hsame
  rw [List.append_right_inj] at hsame
  obtain ⟨hr, -⟩ := append_sep_inj (newline_notMem hnode.path) (newline_notMem hother.path) hsame
  refine eq_of_key_eq e.wellFormed.keys node hselected other hselected' ?_
  rw [Node.key, Node.key, hp, hl, hr]

end Export

/-! ### Reading lines -/

section Reading

open RemoteExec

/-- A text without spaces, and so without line breaks. -/
def Solid (text : Text) : Prop := ∀ c ∈ text, isSpace c = false

theorem solid_of_all {text : Text} (h : (text.all fun c ↦ !isSpace c) = true) : Solid text := fun c hc ↦ by
  simpa using List.all_eq_true.mp h c hc

theorem isSpace_of_isLineBreak {c : Char} (h : isLineBreak c) : isSpace c := by
  simp only [isLineBreak, List.contains_eq_mem, List.mem_cons, List.not_mem_nil, or_false,
    decide_eq_true_eq] at h
  rcases h with h | h | h | h | h | h | h | h | h | h <;> simp [isSpace, h]

/-- A line is read up to its end. -/
theorem splitlinesFrom_terminated {line rest : Text} (hline : ∀ c ∈ line, isLineBreak c = false)
    (front : Text) : splitlinesFrom front (line ++ '\n' :: rest) =
      String.ofList (front.reverse ++ line) :: splitlinesFrom [] rest := by
  induction line generalizing front with
  | nil =>
    rw [List.nil_append, splitlinesFrom, if_pos (by decide), List.append_nil]
    exact fun _ h ↦ absurd h (by decide)
  | cons c line ih =>
    have hc := hline c List.mem_cons_self
    rw [List.cons_append, splitlinesFrom, if_neg (by rw [hc]; exact Bool.false_ne_true),
      ih (fun d hd ↦ hline d (List.mem_cons_of_mem c hd)), List.reverse_cons, List.append_assoc]
    · rfl
    · rintro _ rfl
      exact absurd hc (by decide)

/-- Terminated lines without line breaks in them are read as they were. -/
theorem splitlines_terminated {lines : List Text} (h : ∀ line ∈ lines, ∀ c ∈ line, isLineBreak c = false) :
    splitlines (String.ofList (terminated lines)) = lines.map String.ofList := by
  rw [splitlines, String.toList_ofList]
  induction lines with
  | nil => rfl
  | cons line rest ih =>
    rw [terminated_cons, splitlinesFrom_terminated (h line List.mem_cons_self),
      ih fun line' hline' ↦ h line' (List.mem_cons_of_mem line hline')]
    rfl

theorem splitSpaces_concatWith {words : List Text} (h : ∀ word ∈ words, ' ' ∉ word) (hne : words ≠ []) :
    splitSpaces (String.ofList (concatWith [' '] words)) = words.map String.ofList := by
  rw [splitSpaces, String.toList_ofList, splitOn_concatWith h hne]

theorem Solid.space_notMem {text : Text} (h : Solid text) : ' ' ∉ text :=
  fun hmem ↦ absurd (h _ hmem) (by decide)

/-- Solid words make a line without line breaks. -/
theorem lineBreak_free {words : List Text} (h : ∀ word ∈ words, Solid word) :
    ∀ c ∈ concatWith [' '] words, isLineBreak c = false := by
  intro c hc
  rw [Bool.eq_false_iff]
  intro hbreak
  rcases mem_concatWith hc with rfl | ⟨word, hword, hmem⟩
  · exact absurd hbreak (by decide)
  · exact absurd (isSpace_of_isLineBreak hbreak) (Bool.eq_false_iff.mp (h word hword c hmem))

/-- Characters between `0` and `9` or `a` and `f` are no spaces. -/
theorem isSpace_eq_false {c : Char} (h : 48 ≤ c.toNat ∧ c.toNat ≤ 57 ∨ 97 ≤ c.toNat ∧ c.toNat ≤ 102) :
    isSpace c = false := by
  simp only [isSpace, List.contains_eq_mem, List.mem_cons, List.not_mem_nil, or_false,
    Bool.or_eq_false_iff, decide_eq_false_iff_not, Bool.and_eq_false_iff, not_or]
  omega

theorem solid_of_isSha256 {text : Text} (h : isSha256 (String.ofList text)) : Solid text := by
  rw [isSha256, String.toList_ofList, Bool.and_eq_true, List.all_eq_true] at h
  intro c hc
  have hdigit := h.2 c hc
  rw [Bool.or_eq_true, Bool.and_eq_true, Bool.and_eq_true] at hdigit
  simp only [decide_eq_true_eq] at hdigit
  exact isSpace_eq_false hdigit

/-- A theory's name is read only where it holds no space. -/
theorem solid_of_isTheory {text : Text} (h : isTheory (String.ofList text)) : Solid text := by
  simp only [isTheory, String.toList_ofList, Bool.and_eq_true, List.all_eq_true, Bool.not_eq_true'] at h
  obtain ⟨⟨⟨-, hpackage⟩, -⟩, hname⟩ := h
  intro c hc
  rw [← @List.takeWhile_append_dropWhile _ (· != ':') text, List.mem_append] at hc
  rcases hc with hc | hc
  · exact hpackage c hc
  · cases hrest : text.dropWhile (· != ':') with
    | nil =>
      rw [hrest] at hc
      exact absurd hc List.not_mem_nil
    | cons d rest =>
      rw [hrest] at hc hname
      rcases List.mem_cons.mp hc with rfl | hc
      · have hcolon := List.head?_dropWhile_not (· != ':') text
        rw [hrest] at hcolon
        have hc : c = ':' := by simpa using hcolon
        rw [hc]
        decide
      · exact hname c hc

end Reading

namespace Export

variable {e : Export} {node other dep : Node} {spec : Node → Text}

/-! ### Reading a batch -/

open RemoteExec (Parsed parseLine splitSpaces isTheory isSha256 BatchAction)

/-- How the coordinator reads a theory of the batch. -/
def batchAction (e : Export) (spec : Node → Text) (node : Node) : BatchAction where
  inputKey := String.ofList (e.keyOf node)
  acKey := String.ofList (e.remoteActionKey (e.keyOf node))
  specSha256 := String.ofList (e.context.hash (spec node))
  theory := String.ofList (theoryName node)

/-- How it reads the edge to a parent. -/
def batchEdge (e : Export) (node parent : Node) : String × String :=
  (String.ofList (e.keyOf node), String.ofList (e.keyOf parent))

/-- How it reads the edges of theories. -/
def batchEdges (e : Export) (nodes : List Node) : List (String × String) :=
  nodes.flatMap fun node ↦ (e.uncachedParents node).map (e.batchEdge node)

theorem Exported.isSha256_keyOf (h : e.Exported spec node) : isSha256 (String.ofList (e.keyOf node)) := by
  obtain ⟨text, _, -, hhash⟩ := h.hashed
  rw [← hhash]
  exact e.hash_sha256 text

theorem solid_actionWords (h : e.Exported spec node) (hname : isTheory (String.ofList (theoryName node))) :
    ∀ word ∈ e.actionWords node (spec node), Solid word := by
  rw [actionWords, List.forall_mem_cons, List.forall_mem_cons, List.forall_mem_cons, List.forall_mem_cons,
    List.forall_mem_singleton]
  exact ⟨solid_of_all (by decide), solid_of_isSha256 h.isSha256_keyOf, solid_of_isSha256 (e.hash_sha256 _),
    solid_of_isSha256 (e.hash_sha256 _), solid_of_isTheory hname⟩

theorem solid_edgeWords {parent : Node} (h : e.Exported spec node) (hparent : e.Exported spec parent) :
    ∀ word ∈ e.edgeWords node parent, Solid word := by
  rw [edgeWords, List.forall_mem_cons, List.forall_mem_cons, List.forall_mem_singleton]
  exact ⟨solid_of_all (by decide), solid_of_isSha256 h.isSha256_keyOf,
    solid_of_isSha256 hparent.isSha256_keyOf⟩

theorem ne_empty_of_splitSpaces {line word : String} {rest : List String} (hrest : rest ≠ [])
    (h : splitSpaces line = word :: rest) : line ≠ "" := by
  rintro rfl
  have hone : splitSpaces "" = [""] := by decide
  rw [hone, List.cons.injEq] at h
  exact hrest h.2.symm

/-- The line of a theory is read as its action. -/
theorem parseLine_action {parsed : Parsed} (h : e.Exported spec node)
    (hname : isTheory (String.ofList (theoryName node)))
    (hnew : String.ofList (e.keyOf node) ∉ parsed.actions.map (·.inputKey)) :
    ∃ out, parseLine parsed (String.ofList (e.actionLine node (spec node))) = .ok out ∧
      out.actions = parsed.actions ++ [e.batchAction spec node] ∧ out.edges = parsed.edges := by
  have hwords : splitSpaces (String.ofList (e.actionLine node (spec node))) =
      ["action", String.ofList (e.keyOf node), String.ofList (e.remoteActionKey (e.keyOf node)),
        String.ofList (e.context.hash (spec node)), String.ofList (theoryName node)] := by
    rw [actionLine, splitSpaces_concatWith (fun word hword ↦
      (solid_actionWords h hname word hword).space_notMem) (List.cons_ne_nil _ _)]
    simp [actionWords]
  rw [parseLine, if_neg (ne_empty_of_splitSpaces (List.cons_ne_nil _ _) hwords), hwords]
  have hac : isSha256 (String.ofList (e.remoteActionKey (e.keyOf node))) := e.hash_sha256 _
  have hspec : isSha256 (String.ofList (e.context.hash (spec node))) := e.hash_sha256 _
  simp only [dif_neg hnew, h.isSha256_keyOf, hac, hspec, hname, Bool.not_true, Bool.false_eq_true, if_false]
  exact ⟨_, rfl, rfl, rfl⟩

/-- The line of an edge is read as that edge. -/
theorem parseLine_edge {parsed : Parsed} {parent : Node} (h : e.Exported spec node)
    (hparent : e.Exported spec parent) :
    ∃ out, parseLine parsed (String.ofList (e.edgeLine node parent)) = .ok out ∧
      out.actions = parsed.actions ∧ out.edges = parsed.edges ++ [e.batchEdge node parent] := by
  have hwords : splitSpaces (String.ofList (e.edgeLine node parent)) =
      ["edge", String.ofList (e.keyOf node), String.ofList (e.keyOf parent)] := by
    rw [edgeLine, splitSpaces_concatWith (fun word hword ↦
      (solid_edgeWords h hparent word hword).space_notMem) (List.cons_ne_nil _ _)]
    simp [edgeWords]
  rw [parseLine, if_neg (ne_empty_of_splitSpaces (List.cons_ne_nil _ _) hwords), hwords]
  exact ⟨_, rfl, rfl, rfl⟩

/-- The lines of a theory's edges are read as these edges. -/
theorem foldlM_edges (h : e.Exported spec node) : ∀ {parents : List Node} {parsed : Parsed},
    (∀ parent ∈ parents, e.Exported spec parent) →
    ∃ out, (parents.map fun parent ↦ String.ofList (e.edgeLine node parent)).foldlM parseLine parsed =
        .ok out ∧
      out.actions = parsed.actions ∧ out.edges = parsed.edges ++ parents.map (e.batchEdge node) := by
  intro parents
  induction parents with
  | nil => exact fun {parsed} _ ↦ ⟨parsed, rfl, rfl, by simp⟩
  | cons parent rest ih =>
    intro parsed hparents
    obtain ⟨next, hnext, hactions, hedges⟩ :=
      @parseLine_edge _ _ _ parsed _ h (hparents parent List.mem_cons_self)
    obtain ⟨out, hout, hactions', hedges'⟩ :=
      @ih next fun p hp ↦ hparents p (List.mem_cons_of_mem parent hp)
    refine ⟨out, ?_, hactions'.trans hactions, ?_⟩
    · rw [List.map_cons, List.foldlM_cons]
      exact bind_eq_ok_iff.mpr ⟨next, hnext, hout⟩
    · rw [hedges', hedges, List.map_cons, List.append_assoc]
      rfl

/-- The lines of theories of distinct keys are read as their actions and edges. -/
theorem foldlM_batchLines : ∀ {nodes : List Node} {parsed : Parsed},
    (∀ node ∈ nodes, e.Exported spec node ∧ isTheory (String.ofList (theoryName node)) ∧
      ∀ parent ∈ e.uncachedParents node, e.Exported spec parent) →
    (parsed.actions.map (·.inputKey) ++ nodes.map fun node ↦ String.ofList (e.keyOf node)).Nodup →
    ∃ out, ((e.batchLines spec nodes).map String.ofList).foldlM parseLine parsed = .ok out ∧
      out.actions = parsed.actions ++ nodes.map (e.batchAction spec) ∧
      out.edges = parsed.edges ++ e.batchEdges nodes := by
  intro nodes
  induction nodes with
  | nil => exact fun {parsed} _ _ ↦ ⟨parsed, rfl, by simp, by simp [batchEdges]⟩
  | cons node rest ih =>
    intro parsed hnodes hnodup
    obtain ⟨hexported, hname, hparents⟩ := hnodes node List.mem_cons_self
    have hnew : String.ofList (e.keyOf node) ∉ parsed.actions.map (·.inputKey) := fun hmem ↦
      (List.nodup_append.mp hnodup).2.2 _ hmem _ List.mem_cons_self rfl
    obtain ⟨first, hfirst, hactions, hedges⟩ := parseLine_action hexported hname hnew
    obtain ⟨next, hnext, hactions', hedges'⟩ := @foldlM_edges _ _ _ hexported _ first hparents
    have hnodup' : (next.actions.map (·.inputKey) ++
        rest.map fun node ↦ String.ofList (e.keyOf node)).Nodup := by
      rw [hactions', hactions]
      simpa [batchAction] using hnodup
    obtain ⟨out, hout, hactions'', hedges''⟩ :=
      ih (fun n hn ↦ hnodes n (List.mem_cons_of_mem node hn)) hnodup'
    refine ⟨out, ?_, ?_, ?_⟩
    · have hown : (((e.uncachedParents node).map fun parent ↦ String.ofList (e.edgeLine node parent)) ++
          (e.batchLines spec rest).map String.ofList).foldlM parseLine first = .ok out := by
        rw [List.foldlM_append]
        exact bind_eq_ok_iff.mpr ⟨next, hnext, hout⟩
      rw [batchLines, List.flatMap_cons, List.cons_append, List.map_cons, List.map_append, List.map_map,
        List.foldlM_cons]
      exact bind_eq_ok_iff.mpr ⟨first, hfirst, hown⟩
    · simp [hactions'', hactions', hactions]
    · simp [hedges'', hedges', hedges, batchEdges]

open RemoteExec (joins checkEdges parseBatch Batch)

theorem mem_batchEdges {nodes : List Node} {edge : String × String} : edge ∈ e.batchEdges nodes ↔
    ∃ node ∈ nodes, ∃ parent ∈ e.uncachedParents node, e.batchEdge node parent = edge := by
  simp [batchEdges]

/-- Edges that join actions, once each and without a cycle, pass the checks. -/
theorem checkEdges_eq_ok {parsed : Parsed}
    (hjoins : ∀ edge ∈ parsed.edges, joins (parsed.actions.map (·.inputKey)) edge)
    (hnodup : parsed.edges.Nodup) (hacyclic : Acyclic (RemoteExec.DependsOn parsed.edges)) :
    ∃ batch, checkEdges parsed = .ok batch ∧ batch.actions = parsed.actions ∧
      batch.edges = parsed.edges := by
  unfold checkEdges
  split
  next inputKey parent hfind =>
    have hbad := List.find?_some hfind
    rw [hjoins _ (List.mem_of_find?_eq_some hfind)] at hbad
    exact absurd hbad Bool.false_ne_true
  next =>
    have horder := (RemoteExec.staticOrder_parentsOf_isSome_iff parsed.edges).mpr hacyclic
    rw [dif_pos hnodup, dif_pos horder]
    exact ⟨_, rfl, rfl, rfl⟩

section Names

variable (hexported : ∀ node ∈ e.uncachedActions, e.Exported spec node)

include hexported

/-- Theories of the batch have distinct keys, which the coordinator reads as different texts. -/
theorem eq_of_ofList_keyOf_eq (hnode : node ∈ e.uncachedActions) (hother : other ∈ e.uncachedActions)
    (h : String.ofList (e.keyOf node) = String.ofList (e.keyOf other)) : node = other :=
  eq_of_keyOf_eq (hexported node hnode) (hexported other hother) (mem_theories_of_uncached hnode)
    (mem_theories_of_uncached hother) (String.ofList_injective h)

theorem nodup_batchEdges : (e.batchEdges e.uncachedActions).Nodup := by
  rw [batchEdges, List.nodup_flatMap]
  refine ⟨fun node hnode ↦ ?_, ?_⟩
  · obtain ⟨hnodup, hparents, -⟩ := e.uncachedParents_spec node
    refine hnodup.map_on fun a ha b hb hab ↦ ?_
    exact eq_of_ofList_keyOf_eq hexported (hparents a ha).1 (hparents b hb).1 (Prod.mk.inj hab).2
  · refine nodup_uncachedActions.imp_of_mem fun {a b} ha hb hne edge hedge hedge' ↦ ?_
    obtain ⟨parent, -, rfl⟩ := List.mem_map.mp hedge
    obtain ⟨parent', -, hsame⟩ := List.mem_map.mp hedge'
    exact hne (eq_of_ofList_keyOf_eq hexported ha hb (Prod.mk.inj hsame).1.symm)

/-- Edges lead to theories selected before, so they form no cycle. -/
theorem acyclic_batchEdges : Acyclic (RemoteExec.DependsOn (e.batchEdges e.uncachedActions)) := by
  let position : String → ℕ := fun key ↦
    ((e.uncachedActions.find? fun node ↦ String.ofList (e.keyOf node) = key).map e.plan.selected.idxOf).getD 0
  have hposition : ∀ node ∈ e.uncachedActions,
      position (String.ofList (e.keyOf node)) = e.plan.selected.idxOf node := by
    intro node hnode
    show ((e.uncachedActions.find? _).map _).getD 0 = _
    cases hfind : e.uncachedActions.find? fun other ↦
        String.ofList (e.keyOf other) = String.ofList (e.keyOf node) with
    | none => exact absurd (List.find?_eq_none.mp hfind node hnode) (by simp)
    | some found =>
      have hkey := List.find?_some hfind
      rw [decide_eq_true_eq] at hkey
      rw [eq_of_ofList_keyOf_eq hexported (List.mem_of_find?_eq_some hfind) hnode hkey]
      rfl
  refine (acyclic_of_rank (r := Function.swap (RemoteExec.DependsOn _)) position fun a b hab ↦ ?_).swap
  obtain ⟨node, hnode, parent, hparent, hedge⟩ := mem_batchEdges.mp hab
  obtain ⟨-, hparents, -⟩ := e.uncachedParents_spec node
  obtain ⟨huncached, hdepends⟩ := hparents parent hparent
  obtain ⟨rfl, rfl⟩ := Prod.mk.inj hedge
  rw [hposition node hnode, hposition parent huncached]
  exact idxOf_lt_of_transGen hdepends

/-- The coordinator reads a batch whose theories have names without spaces as it was written. -/
theorem exists_parseBatch
    (hnames : ∀ node ∈ e.uncachedActions, isTheory (String.ofList (theoryName node))) :
    ∃ batch, parseBatch (String.ofList
        (terminated (actionBatchHeader :: e.batchLines spec e.uncachedActions))) = .ok batch ∧
      batch.actions = e.uncachedActions.map (e.batchAction spec) ∧
      batch.edges = e.batchEdges e.uncachedActions := by
  have hparents : ∀ node ∈ e.uncachedActions, ∀ parent ∈ e.uncachedParents node, e.Exported spec parent :=
    fun node _ parent hparent ↦ hexported parent ((e.uncachedParents_spec node).2.1 parent hparent).1
  have hlines : ∀ line ∈ actionBatchHeader :: e.batchLines spec e.uncachedActions, ∀ c ∈ line,
      RemoteExec.isLineBreak c = false := by
    refine List.forall_mem_cons.mpr ⟨fun c hc ↦ ?_, fun line hline ↦ ?_⟩
    · have hheader : (actionBatchHeader.all fun c ↦ !RemoteExec.isLineBreak c) = true := by decide
      simpa using List.all_eq_true.mp hheader c hc
    · obtain ⟨node, hnode, hown⟩ := List.mem_flatMap.mp hline
      rcases List.mem_cons.mp hown with rfl | hedge
      · exact lineBreak_free (solid_actionWords (hexported node hnode) (hnames node hnode))
      · obtain ⟨parent, hparent, rfl⟩ := List.mem_map.mp hedge
        exact lineBreak_free (solid_edgeWords (hexported node hnode) (hparents node hnode parent hparent))
  have hnodup : (e.uncachedActions.map fun node ↦ String.ofList (e.keyOf node)).Nodup :=
    nodup_uncachedActions.map_on fun a ha b hb hab ↦ eq_of_ofList_keyOf_eq hexported ha hb hab
  obtain ⟨parsed, hparsed, hactions, hedges⟩ := @foldlM_batchLines e spec e.uncachedActions Parsed.empty
    (fun node hnode ↦ ⟨hexported node hnode, hnames node hnode, hparents node hnode⟩)
    (by simpa [Parsed.empty] using hnodup)
  have hkeys : parsed.actions.map (·.inputKey) =
      e.uncachedActions.map fun node ↦ String.ofList (e.keyOf node) := by
    rw [hactions]
    simp [Parsed.empty, batchAction]
  have hsame : parsed.edges = e.batchEdges e.uncachedActions := by
    rw [hedges]
    rfl
  have hjoins : ∀ edge ∈ parsed.edges, joins (parsed.actions.map (·.inputKey)) edge := by
    intro edge hedge
    rw [hsame] at hedge
    obtain ⟨node, hnode, parent, hparent, rfl⟩ := mem_batchEdges.mp hedge
    obtain ⟨huncached, hdepends⟩ := (e.uncachedParents_spec node).2.1 parent hparent
    rw [hkeys, joins, Bool.and_eq_true, Bool.and_eq_true, decide_eq_true_eq, decide_eq_true_eq,
      decide_eq_true_eq]
    refine ⟨⟨List.mem_map_of_mem hnode, List.mem_map_of_mem huncached⟩, fun heq ↦ ?_⟩
    have hlt := idxOf_lt_of_transGen hdepends
    rw [eq_of_ofList_keyOf_eq hexported hnode huncached heq] at hlt
    exact lt_irrefl _ hlt
  obtain ⟨batch, hbatch, hactions', hedges'⟩ := checkEdges_eq_ok hjoins
    (hsame ▸ nodup_batchEdges hexported) (hsame ▸ acyclic_batchEdges hexported)
  refine ⟨batch, ?_, ?_, hedges'.trans hsame⟩
  · rw [parseBatch, splitlines_terminated hlines, List.map_cons]
    have hheader : String.ofList actionBatchHeader = "holbuild-action-batch-v1" := String.ofList_toList ..
    show (if String.ofList actionBatchHeader = "holbuild-action-batch-v1" then _ else _) = _
    rw [if_pos hheader, hparsed]
    exact hbatch
  · rw [hactions', hactions]
    rfl

end Names

/-- Every action read has a theory's name. -/
def Named (parsed : Parsed) : Prop := ∀ action ∈ parsed.actions, isTheory action.theory

theorem named_of_parseLine {parsed out : Parsed} {line : String} (h : parseLine parsed line = .ok out)
    (hparsed : Named parsed) : Named out := by
  unfold parseLine at h
  split at h
  · exact Except.ok.inj h ▸ hparsed
  · split at h
    · next inputKey acKey spec theory _ =>
      split_ifs at h with _ _ _ _ hname
      rw [← Except.ok.inj h]
      refine List.forall_mem_append.mpr ⟨hparsed, List.forall_mem_singleton.mpr ?_⟩
      simpa using hname
    · exact Except.ok.inj h ▸ hparsed
    · cases h

theorem named_of_foldlM : ∀ {lines : List String} {parsed out : Parsed},
    lines.foldlM parseLine parsed = .ok out → Named parsed → Named out := by
  intro lines
  induction lines with
  | nil => exact fun h hparsed ↦ Except.ok.inj h ▸ hparsed
  | cons line rest ih =>
    intro parsed out h hparsed
    rw [List.foldlM_cons] at h
    obtain ⟨next, hnext, hrest⟩ := bind_eq_ok_iff.mp h
    exact ih hrest (named_of_parseLine hnext hparsed)

/-- Every action of a batch that the coordinator accepts has a theory's name. -/
theorem isTheory_of_parseBatch {text : String} {batch : Batch} (h : parseBatch text = .ok batch) :
    ∀ action ∈ batch.actions, isTheory action.theory := by
  unfold parseBatch at h
  split at h
  · cases h
  · split_ifs at h
    split at h
    · cases h
    · next parsed hparsed =>
      have hnamed := named_of_foldlM hparsed (fun _ hmem ↦ absurd hmem List.not_mem_nil)
      unfold checkEdges at h
      split at h
      · cases h
      · split_ifs at h
        rw [← Except.ok.inj h]
        exact hnamed

/-! ### Batches that are self-contained -/

/-- A theory that was not built here, and is forced or not in the remote cache. -/
def Lacking (e : Export) (node : Node) : Prop :=
  e.builtHere node = false ∧ (e.isForced node = true ∨ e.satisfiesFirst node = false)

/-- The theories that workers build: those lacking, and those built here that cannot be published, where a
theory that is lacking depends on them. -/
def Sent (e : Export) (node : Node) : Prop :=
  node ∈ e.theories ∧ (e.Lacking node ∨ e.builtHere node = true ∧ e.available node = false ∧
    ∃ first ∈ e.theories, e.Lacking first ∧ TransGen e.plan.DependsOn first node)

theorem mem_firstUncached : node ∈ e.firstUncached ↔ node ∈ e.theories ∧ e.Lacking node := by
  rw [firstUncached, List.mem_filter, otherActions, List.mem_filter, Lacking, Bool.not_eq_true',
    Bool.not_eq_true', Bool.and_eq_false_iff, Bool.not_eq_false', and_assoc]

theorem mem_uncachedActions_iff : node ∈ e.uncachedActions ↔ e.Sent node := by
  have hdeps : node ∈ e.batchDeps ↔
      ∃ first ∈ e.theories, e.Lacking first ∧ TransGen e.plan.DependsOn first node := by
    simp only [batchDeps, List.mem_flatMap, mem_firstUncached, mem_transitiveProjectDeps, and_assoc]
  rw [mem_uncachedActions, mem_firstUncached, mem_unavailable, hdeps, hereActions, List.mem_filter, Sent]
  tauto

/-- What workers rely on: the batch read has the exported theories as its actions; a theory that one of them
depends on is one of them too, with a way of edges to it, or the remote cache has it; edges lead to
dependencies only; and a theory neither built here nor in the remote cache is in the batch. -/
structure SelfContained (e : Export) (batch : Batch) : Prop where
  actions : batch.actions.map (fun action ↦ (action.inputKey, action.theory)) =
    e.uncachedActions.map fun node ↦ (String.ofList (e.keyOf node), String.ofList (theoryName node))
  joined : ∀ node ∈ e.uncachedActions, ∀ dep, TransGen e.plan.DependsOn node dep → isTheoryNode dep →
    (dep ∈ e.uncachedActions ∧ TransGen (RemoteExec.DependsOn batch.edges) (String.ofList (e.keyOf node))
      (String.ofList (e.keyOf dep))) ∨ e.remoteHeld dep
  edges : ∀ edge ∈ batch.edges, ∃ node ∈ e.uncachedActions, ∃ dep ∈ e.uncachedActions,
    TransGen e.plan.DependsOn node dep ∧ edge = e.batchEdge node dep
  complete : ∀ node ∈ e.theories, e.builtHere node = false → e.remoteHeld node = false →
    node ∈ e.uncachedActions

/-- A batch with the actions and edges that were exported is self-contained. -/
theorem selfContained_of_read {batch : Batch}
    (hactions : batch.actions = e.uncachedActions.map (e.batchAction spec))
    (hedges : batch.edges = e.batchEdges e.uncachedActions) : e.SelfContained batch := by
  refine ⟨?_, fun node hnode dep h htheory ↦ ?_, fun edge hedge ↦ ?_, fun node hnode ↦ ?_⟩
  · rw [hactions, List.map_map]
    rfl
  · refine (uncached_or_held hnode h htheory).imp_left fun hdep ↦ ⟨hdep, ?_⟩
    have hway := transGen_uncachedParents hdep hnode h
    rw [hedges]
    refine hway.lift (fun n ↦ String.ofList (e.keyOf n)) fun a b hab ↦ ?_
    exact mem_batchEdges.mpr ⟨a, hab.1, b, hab.2, rfl⟩
  · rw [hedges] at hedge
    obtain ⟨node, hnode, parent, hparent, rfl⟩ := mem_batchEdges.mp hedge
    obtain ⟨huncached, hdepends⟩ := (e.uncachedParents_spec node).2.1 parent hparent
    exact ⟨node, hnode, parent, huncached, hdepends, rfl⟩
  · exact mem_uncachedActions_of_other hnode

/-- The theories of a self-contained batch that the coordinator reads have theories' names. -/
theorem isTheory_of_selfContained {text : String} {batch : Batch} (hbatch : parseBatch text = .ok batch)
    (hself : e.SelfContained batch) (hnode : node ∈ e.uncachedActions) :
    isTheory (String.ofList (theoryName node)) := by
  have hmem : (String.ofList (e.keyOf node), String.ofList (theoryName node)) ∈
      batch.actions.map fun action ↦ (action.inputKey, action.theory) := by
    rw [hself.actions]
    exact List.mem_map_of_mem hnode
  obtain ⟨action, haction, hsame⟩ := List.mem_map.mp hmem
  rw [← (Prod.mk.inj hsame).2]
  exact isTheory_of_parseBatch hbatch action haction

end Export

/-! ### A package with a space of Unicode in its name -/

/-- A theory script of a package. -/
def sampleTheory (package : String) : Node :=
  ⟨⟨"n".toList, package.toList, "/p".toList, .theoryScript, "aTheory".toList, "/p/aScript.sml".toList,
    "aScript.sml".toList, ⟨[], [], [], true, false⟩⟩, []⟩

/-- The plan that selects it. -/
def sampleTheoryPlan (package : String) : Plan where
  nodes := [sampleTheory package]
  roots := [sampleTheory package]
  selected := [sampleTheory package]
  dependencyGraph := ⟨[((sampleTheory package).key, [])], [((sampleTheory package).key, [])],
    [((sampleTheory package).key, [])], [((sampleTheory package).key, [])], [((sampleTheory package).key, [])]⟩
  selectedKeyIndex := buildKeyIndex [sampleTheory package]
  selectedAdjacency := [[]]
  holdir := []

theorem wellFormed_sampleTheoryPlan (package : String) : (sampleTheoryPlan package).WellFormed where
  keys := List.nodup_singleton _
  keyIndex := rfl
  ordered := by
    intro node hnode edge hedge
    rw [List.mem_singleton.mp hnode] at hedge
    have hnone : lookup? (sampleTheoryPlan package).dependencyGraph.resolved (sampleTheory package).key =
        some [] := (lookup?_eq_some_iff (List.pairwise_singleton _ _)).mpr List.mem_cons_self
    rw [graphValues, hnone] at hedge
    exact absurd hedge List.not_mem_nil

/-- An upload of a plan with one theory, of which no cache has an entry. -/
def sampleExport (package : String) : Export where
  context := ⟨sampleTheoryPlan package, fun _ ↦ ⟨[], [], [], [], []⟩, fun _ ↦ "val x = 1".toList,
    .dir true [], fun _ ↦ List.replicate 64 'a', fun _ ↦ [], "t".toList⟩
  wellFormed := wellFormed_sampleTheoryPlan package
  keys _ := some (List.replicate 64 'a')
  hash_sha256 _ := show RemoteExec.isSha256 (String.ofList (List.replicate 64 'a')) by decide +kernel
  hash_injOn := by
    rintro text ⟨node, hnode, lines, htext⟩ text' ⟨node', hnode', lines', htext'⟩ -
    rw [List.mem_singleton.mp hnode] at htext
    rw [List.mem_singleton.mp hnode', htext] at htext'
    exact (Prod.mk.inj (Except.ok.inj htext')).1
  online := true
  remote := true
  tracing := false
  useCache := true
  upload := true
  localResumable := false
  forced := []
  toolchainLine := .ok "toolchain git=hol rev=main kernel=stdknl".toList
  excludedReason _ := none
  metadataSatisfies _ := false
  satisfiesFirst _ := false
  satisfiesAgain _ := false
  localSatisfies _ := false
  satisfiesPublished _ := false
  specText _ text := .ok text
  uploaded _ := true

/-- The batch that is exported, if one is. -/
def Export.batchText (e : Export) : Text := e.exportActionSpecs.toOption.getD []

theorem Export.exportActionSpecs_eq_ok {e : Export} (h : e.exportActionSpecs.isOk) :
    e.exportActionSpecs = .ok e.batchText := by
  rw [batchText]
  cases hexport : e.exportActionSpecs with
  | ok text => rfl
  | error error =>
    rw [hexport] at h
    cases h

end Holbuild.ActionBatch
