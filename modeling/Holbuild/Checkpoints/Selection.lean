import Holbuild.Library.Lines

/-!
# Checkpoints of a theory and the one a run starts from

A theory's checkpoints are saved states with an `.ok` text each, and for failed prefixes a `.meta` text.
A checkpoint is accepted when its state exists and its texts are those the current script asks for. A
run starts from the latest accepted failed prefix, from the latest accepted context, from the loaded
dependencies, or from the base state (`selectContext`).
-/

set_option autoImplicit false
set_option relaxedAutoImplicit false

namespace Holbuild.Checkpoints

open Library

/-- Where a state of a theory is saved, under the checkpoint base of the theory. -/
inductive StatePath
  | depsLoaded (depsKey : Text)
  | theoremContext (depsKey engine prefixHash safeName : Text)
  | failedPrefix (depsKey engine safeName : Text)
  | declarationContext (depsKey engine prefixHash safeName : Text)
deriving DecidableEq, Repr

/-- A state is saved under the tree of source checkpoints of a dependency context. -/
def StatePath.isSourceCheckpoint (depsKey : Text) : StatePath → Bool
  | .depsLoaded _ => false
  | .theoremContext key _ _ _ => key = depsKey
  | .failedPrefix key _ _ => key = depsKey
  | .declarationContext key _ _ _ => key = depsKey

/-- The texts beside a saved state, none where the file cannot be read. -/
structure Files where
  ok : Option Text
  metadata : Option Text
deriving DecidableEq, Repr

/-- The saved states of a theory. -/
abbrev Store := StatePath → Option Files

/-- Removes a state with its texts. -/
def removeCheckpoint (store : Store) (path : StatePath) : Store := Function.update store path none

/-- Removes the theorem and declaration checkpoints of a dependency context. -/
def removeSourceCheckpoints (depsKey : Text) (store : Store) : Store := fun path ↦
  if path.isSourceCheckpoint depsKey then none else store path

/-- Removes the source checkpoints of a dependency context, then its loaded dependencies. -/
def removeDepsFamily (depsKey : Text) (store : Store) : Store :=
  removeCheckpoint (removeSourceCheckpoints depsKey store) (.depsLoaded depsKey)

/-- A theorem of the script that may be resumed from. -/
structure TheoremCheckpoint where
  kind : Text
  name : Text
  safeName : Text
  boundary : ℕ
  proofAttrs : List (Text × List Text)
  prefixHash : Text
  checkpointKey : Text
  failedPrefixOk : Text
deriving DecidableEq, Repr

/-- A definition of the script that may be resumed from. -/
structure DeclarationCheckpoint where
  name : Text
  safeName : Text
  boundary : ℕ
  prefixHash : Text
  checkpointKey : Text
deriving DecidableEq, Repr

/-- The script of a theory with the checkpoints its current text asks for, all of one dependency
context and one proof engine. -/
structure Script where
  depsKey : Text
  engine : Text
  theorems : List TheoremCheckpoint
  declarations : List DeclarationCheckpoint
  extraOutputs : List Text

namespace Script

def contextPath (script : Script) (c : TheoremCheckpoint) : StatePath :=
  .theoremContext script.depsKey script.engine c.prefixHash c.safeName

def failedPrefixPath (script : Script) (c : TheoremCheckpoint) : StatePath :=
  .failedPrefix script.depsKey script.engine c.safeName

def declarationPath (script : Script) (c : DeclarationCheckpoint) : StatePath :=
  .declarationContext script.depsKey script.engine c.prefixHash c.safeName

end Script

/-! ### Accepted checkpoints -/

def metadataLines (text : Text) : List Text := tokens (fun c ↦ c = '\n') text

/-- The value of the first line with a key. -/
def metadataValue (key : Text) (lines : List Text) : Option Text :=
  lines.findSome? fun line ↦
    if (key ++ ['=']).isPrefixOf line then some (line.drop (key.length + 1)) else none

def metadataMatchesFields (fields : List (Text × Text)) (text : Text) : Bool :=
  let lines := metadataLines text
  lines.contains "holbuild-checkpoint-ok-v2".toList &&
    fields.all fun field ↦ metadataValue field.1 lines = some field.2

def okMatches (store : Store) (path : StatePath) (fields : List (Text × Text)) : Bool :=
  match store path with
  | some files =>
    match files.ok with
    | some text => metadataMatchesFields fields text
    | none => false
  | none => false

def depsCheckpointExists (store : Store) (depsKey : Text) : Bool :=
  okMatches store (.depsLoaded depsKey)
    [("kind".toList, "deps_loaded".toList), ("deps_key".toList, depsKey)]

/-- What the policy of a run allows. `timeoutSatisfies` decides whether a checkpoint's `.ok` text
records a proof timeout that satisfies the requested one. -/
structure Policy where
  checkpoint : Bool
  proofSteps : Bool
  traceSteps : Bool
  timeoutSatisfies : Option Text → Bool

def checkpointTimeoutSatisfies (policy : Policy) (store : Store) (path : StatePath) : Bool :=
  match store path with
  | some files => policy.timeoutSatisfies files.ok
  | none => policy.timeoutSatisfies none

variable (policy : Policy) (script : Script) (store : Store)

def contextExists (path : StatePath) (kind prefixHash checkpointKey : Text) : Bool :=
  depsCheckpointExists store script.depsKey &&
  okMatches store path
    [("kind".toList, kind), ("deps_key".toList, script.depsKey), ("prefix_key".toList, prefixHash),
      ("checkpoint_key".toList, checkpointKey)] &&
  checkpointTimeoutSatisfies policy store path

def theoremContextExists (c : TheoremCheckpoint) : Bool :=
  contextExists policy script store (script.contextPath c) "theorem_context".toList c.prefixHash
    c.checkpointKey

def declarationContextExists (c : DeclarationCheckpoint) : Bool :=
  contextExists policy script store (script.declarationPath c) "definition_context".toList
    c.prefixHash c.checkpointKey

def withoutProofTimeout (text : Text) : Text :=
  concatWith ['\n'] ((metadataLines text).filter fun line ↦
    !("proof_timeout=".toList.isPrefixOf line)) ++ ['\n']

/-- The step count of a failed prefix's metadata, if the metadata can be resumed from. -/
def failedPrefixMetadata (text : Text) : Option ℕ :=
  let value := fun key : String ↦ metadataValue key.toList (metadataLines text)
  match value "proof_ir_failed_prefix_version", value "step_count", value "prefix_end",
    value "path", value "focus", value "history_count" with
  | some version, some stepCountText, some _, some _, some _, some _ =>
    if version = "5".toList then
      match readDecimal stepCountText with
      | some stepCount =>
        if stepCount = 0 ∨ (value "prefix_signature").isSome then some stepCount else none
      | none => none
    else none
  | _, _, _, _, _, _ => none

/-- The step count of a theorem's failed-prefix checkpoint, if it is accepted. -/
def failedPrefixCheckpoint (c : TheoremCheckpoint) : Option ℕ :=
  if c.proofAttrs ≠ [] then none
  else
    match store (script.failedPrefixPath c) with
    | some ⟨some okText, some metadata⟩ =>
      if withoutProofTimeout okText = withoutProofTimeout c.failedPrefixOk ∧
          checkpointTimeoutSatisfies policy store (script.failedPrefixPath c) then
        failedPrefixMetadata metadata
      else none
    | _ => none

/-! ### The checkpoint a run starts from -/

/-- A context a run can start from: the offset in the script it has reached, and its state. -/
structure Replay where
  boundary : ℕ
  path : StatePath
deriving DecidableEq, Repr

def replayCandidates : List Replay :=
  (script.theorems.filter (theoremContextExists policy script store)).map (fun c ↦
    ⟨c.boundary, script.contextPath c⟩) ++
  (script.declarations.filter (declarationContextExists policy script store)).map fun c ↦
    ⟨c.boundary, script.declarationPath c⟩

/-- The last of the values with the largest boundary. -/
def latest {α : Type} (boundary : α → ℕ) : List α → Option α
  | [] => none
  | first :: rest => some (rest.foldl (fun best value ↦
      if boundary value ≥ boundary best then value else best) first)

/-- Saved states hold no files a script writes, so a script with declared outputs runs in full. -/
def scriptReplayAllowed (script : Script) : Bool := script.extraOutputs = []

def replayCandidate : Option Replay :=
  if !scriptReplayAllowed script || policy.traceSteps then none
  else latest Replay.boundary (replayCandidates policy script store)

def failedPrefixCandidates : List TheoremCheckpoint :=
  if scriptReplayAllowed script && policy.proofSteps && !policy.traceSteps then
    script.theorems.filter fun c ↦ (failedPrefixCheckpoint policy script store c).isSome
  else []

/-- What a run starts from. -/
inductive Context
  | base
  | state (path : StatePath)
deriving DecidableEq, Repr

/-- The context a run starts from, and the store once the run is set up: a run from the base state
removes the source checkpoints first. -/
def selectContext : Context × Store :=
  if !policy.checkpoint then (.base, store)
  else
    let replay := replayCandidate policy script store
    let fromDeps :=
      if depsCheckpointExists store script.depsKey then (.state (.depsLoaded script.depsKey), store)
      else (.base, removeSourceCheckpoints script.depsKey store)
    match latest TheoremCheckpoint.boundary (failedPrefixCandidates policy script store), replay with
    | some failed, none => (.state (script.failedPrefixPath failed), store)
    | some failed, some replay =>
      if failed.boundary ≥ replay.boundary then (.state (script.failedPrefixPath failed), store)
      else (.state replay.path, store)
    | none, some replay => (.state replay.path, store)
    | none, none => fromDeps

/-! ### The latest candidate -/

variable {α : Type} {boundary : α → ℕ}

theorem foldl_latest_spec (first : α) (rest : List α) :
    let best := rest.foldl (fun best value ↦ if boundary value ≥ boundary best then value else best)
      first
    best ∈ first :: rest ∧ ∀ value ∈ first :: rest, boundary value ≤ boundary best := by
  induction rest generalizing first with
  | nil => simp
  | cons next rest ih =>
    rw [List.foldl_cons]
    by_cases hnext : boundary next ≥ boundary first
    · rw [if_pos hnext]
      obtain ⟨hmem, hmax⟩ := ih next
      refine ⟨List.mem_cons_of_mem _ hmem, fun value hvalue ↦ ?_⟩
      rcases List.mem_cons.mp hvalue with rfl | hvalue
      · exact hnext.trans (hmax next List.mem_cons_self)
      · exact hmax value hvalue
    · rw [if_neg hnext]
      obtain ⟨hmem, hmax⟩ := ih first
      refine ⟨?_, fun value hvalue ↦ ?_⟩
      · rcases List.mem_cons.mp hmem with hfirst | hrest
        · rw [hfirst]
          exact List.mem_cons_self
        · exact List.mem_cons_of_mem _ (List.mem_cons_of_mem _ hrest)
      · rcases List.mem_cons.mp hvalue with rfl | hvalue
        · exact hmax value List.mem_cons_self
        rcases List.mem_cons.mp hvalue with rfl | hvalue
        · exact (Nat.le_of_not_ge hnext).trans (hmax first List.mem_cons_self)
        · exact hmax value (List.mem_cons_of_mem _ hvalue)

/-- The latest value is one of the values, and none is later. -/
theorem latest_eq_some {values : List α} {best : α} (h : latest boundary values = some best) :
    best ∈ values ∧ ∀ value ∈ values, boundary value ≤ boundary best := by
  cases values with
  | nil => exact absurd h (by simp [latest])
  | cons first rest =>
    have hspec := @foldl_latest_spec _ boundary first rest
    rw [latest, Option.some.injEq] at h
    rwa [← h]

theorem latest_eq_none_iff {values : List α} : latest boundary values = none ↔ values = [] := by
  cases values with
  | nil => simp [latest]
  | cons first rest => simp [latest]

end Holbuild.Checkpoints
