import Holbuild.Checkpoints.Selection
import Mathlib.Data.Finset.Card

/-!
# Recovery from unusable checkpoints

A run whose checkpoint HOL cannot load or resume discards it and is tried again, as often as the script
has theorem and declaration boundaries, and once more (`runTheoryActionCheckpoints`). A failed prefix is
discarded alone, a context with all source checkpoints, the loaded dependencies with the whole family.
Every retry takes away what it could have started from (`retry_removes`). The retries suffice except in
one situation (`Exhausting`): a script without declaration boundaries whose failed prefixes are all
there, all unusable and none before the latest context, which is unusable as well, as are the loaded
dependencies (`recovery_ends_iff`).
-/

set_option autoImplicit false
set_option relaxedAutoImplicit false

namespace Holbuild.Checkpoints

open Library

/-- How a run of a theory action ended: with a result of HOL's run from a context, or asking for
another run. -/
inductive Attempt
  | ended (context : Context)
  | retryInvalidCheckpoint
deriving DecidableEq, Repr

/-- Removes a state that could not be loaded, with the states that may have been saved from it. -/
def removeLoadedCheckpointDescendants (script : Script) (loaded : StatePath) (store : Store) :
    Store :=
  if loaded = .depsLoaded script.depsKey then removeDepsFamily script.depsKey store
  else
    match script.theorems.find? fun c ↦ loaded = script.failedPrefixPath c with
    | some c => removeCheckpoint store (script.failedPrefixPath c)
    | none =>
      match script.theorems.find? fun c ↦ loaded = script.contextPath c with
      | some _ => removeSourceCheckpoints script.depsKey store
      | none =>
        match script.declarations.find? fun c ↦ loaded = script.declarationPath c with
        | some _ => removeSourceCheckpoints script.depsKey store
        | none => removeCheckpoint store loaded

section

variable (unusable : StatePath → Bool) (policy : Policy) (script : Script)

/-- Runs the action once. HOL cannot load or resume the unusable states; from every other context, and
always from the base state, its run has a result. -/
def runTheoryAction (store : Store) : Attempt × Store :=
  match selectContext policy script store with
  | (.base, store) => (.ended .base, store)
  | (.state path, store) =>
    if unusable path then
      (.retryInvalidCheckpoint, removeLoadedCheckpointDescendants script path store)
    else (.ended (.state path), store)

/-- Runs the action, and again while a run asks for it and retries are left. -/
def runWithRetries : ℕ → Store → Attempt × Store
  | 0, store => runTheoryAction unusable policy script store
  | retriesLeft + 1, store =>
    match runTheoryAction unusable policy script store with
    | (.retryInvalidCheckpoint, store') => runWithRetries retriesLeft store'
    | (.ended context, store') => (.ended context, store')

def runTheoryActionCheckpoints (store : Store) : Attempt × Store :=
  runWithRetries unusable policy script
    (script.theorems.length + script.declarations.length + 1) store

end

/-! ### What a run can start from -/

variable {unusable : StatePath → Bool} {policy : Policy} {script : Script} {store store' : Store}
  {path : StatePath}

/-- The contexts that a run can start from. -/
def replays (policy : Policy) (script : Script) (store : Store) : List Replay :=
  if !scriptReplayAllowed script || policy.traceSteps then []
  else replayCandidates policy script store

theorem replayCandidate_eq_latest :
    replayCandidate policy script store = latest Replay.boundary (replays policy script store) := by
  rw [replayCandidate, replays]
  split
  · rfl
  · rfl

/-- The states that a run can start from. -/
def choices (policy : Policy) (script : Script) (store : Store) : Finset StatePath :=
  ((failedPrefixCandidates policy script store).map script.failedPrefixPath).toFinset ∪
  ((replays policy script store).map Replay.path).toFinset ∪
  if depsCheckpointExists store script.depsKey then {.depsLoaded script.depsKey} else ∅

/-- What a run that starts from a state has chosen. -/
inductive Chosen (policy : Policy) (script : Script) (store : Store) : StatePath → Prop
  | failedPrefix {c : TheoremCheckpoint} (hmem : c ∈ failedPrefixCandidates policy script store)
      (hlatest : ∀ r ∈ replays policy script store, r.boundary ≤ c.boundary) :
      Chosen policy script store (script.failedPrefixPath c)
  | replay {r : Replay} (hr : replayCandidate policy script store = some r)
      (hlater : ∀ c ∈ failedPrefixCandidates policy script store, c.boundary < r.boundary) :
      Chosen policy script store r.path
  | depsLoaded (hprefixes : failedPrefixCandidates policy script store = [])
      (hreplays : replays policy script store = [])
      (hdeps : depsCheckpointExists store script.depsKey = true) :
      Chosen policy script store (.depsLoaded script.depsKey)

/-- A run that starts from a state has chosen it, and setting it up changes nothing. -/
theorem chosen_of_selectContext (h : selectContext policy script store = (.state path, store')) :
    store' = store ∧ Chosen policy script store path := by
  rw [selectContext] at h
  split at h
  · simp at h
  dsimp only at h
  split at h
  · next failed hfailed hreplay =>
    rw [Prod.mk.injEq, Context.state.injEq] at h
    rw [← h.1, ← h.2]
    rw [replayCandidate_eq_latest, latest_eq_none_iff] at hreplay
    exact ⟨rfl, .failedPrefix (latest_eq_some hfailed).1 (by simp [hreplay])⟩
  · next failed replay hfailed hreplay =>
    have hreplays := replayCandidate_eq_latest ▸ hreplay
    split at h
    · next hle =>
      rw [Prod.mk.injEq, Context.state.injEq] at h
      rw [← h.1, ← h.2]
      exact ⟨rfl, .failedPrefix (latest_eq_some hfailed).1 fun r hr ↦
        ((latest_eq_some hreplays).2 r hr).trans hle⟩
    · next hlt =>
      rw [Prod.mk.injEq, Context.state.injEq] at h
      rw [← h.1, ← h.2]
      exact ⟨rfl, .replay hreplay fun c hc ↦
        ((latest_eq_some hfailed).2 c hc).trans_lt (Nat.lt_of_not_ge hlt)⟩
  · next replay hfailed hreplay =>
    rw [Prod.mk.injEq, Context.state.injEq] at h
    rw [← h.1, ← h.2]
    rw [latest_eq_none_iff] at hfailed
    exact ⟨rfl, .replay hreplay (by simp [hfailed])⟩
  · next hfailed hreplay =>
    rw [latest_eq_none_iff] at hfailed
    rw [replayCandidate_eq_latest, latest_eq_none_iff] at hreplay
    split at h
    · next hdeps =>
      rw [Prod.mk.injEq, Context.state.injEq] at h
      rw [← h.1, ← h.2]
      exact ⟨rfl, .depsLoaded hfailed hreplay hdeps⟩
    · simp at h

/-- A context a run can start from is a theorem's or a declaration's. -/
theorem path_of_mem_replays {r : Replay} (hr : r ∈ replays policy script store) :
    (∃ c ∈ script.theorems, r.path = script.contextPath c) ∨
      ∃ c ∈ script.declarations, r.path = script.declarationPath c := by
  rw [replays] at hr
  split at hr
  · exact absurd hr List.not_mem_nil
  rw [replayCandidates, List.mem_append, List.mem_map, List.mem_map] at hr
  rcases hr with ⟨c, hc, rfl⟩ | ⟨c, hc, rfl⟩
  · exact .inl ⟨c, List.mem_of_mem_filter hc, rfl⟩
  · exact .inr ⟨c, List.mem_of_mem_filter hc, rfl⟩

/-! ### What discarding leaves -/

theorem mem_theorems_of_mem_failedPrefixCandidates {c : TheoremCheckpoint}
    (hc : c ∈ failedPrefixCandidates policy script store) : c ∈ script.theorems := by
  rw [failedPrefixCandidates] at hc
  split at hc
  · exact List.mem_of_mem_filter hc
  · exact absurd hc List.not_mem_nil

/-- A failed prefix that cannot be used is removed alone. -/
theorem removeLoaded_failedPrefix {c : TheoremCheckpoint} (hc : c ∈ script.theorems) :
    removeLoadedCheckpointDescendants script (script.failedPrefixPath c) store =
      removeCheckpoint store (script.failedPrefixPath c) := by
  rw [removeLoadedCheckpointDescendants, if_neg (by simp [Script.failedPrefixPath])]
  split
  · next found hfound =>
    have heq := List.find?_some hfound
    rw [decide_eq_true_eq] at heq
    rw [heq]
  · next hnone =>
    have hne := List.find?_eq_none.mp hnone c hc
    simp at hne

/-- The context of a theorem or a declaration of the script is removed with all source checkpoints. -/
theorem removeLoaded_context
    (h : (∃ c ∈ script.theorems, path = script.contextPath c) ∨
      ∃ c ∈ script.declarations, path = script.declarationPath c) :
    removeLoadedCheckpointDescendants script path store =
      removeSourceCheckpoints script.depsKey store := by
  rcases h with ⟨c, hc, hpath⟩ | ⟨c, hc, hpath⟩
  · rw [hpath, removeLoadedCheckpointDescendants, if_neg (by simp [Script.contextPath])]
    split
    · next found hfound =>
      have heq := List.find?_some hfound
      simp [Script.contextPath, Script.failedPrefixPath] at heq
    split
    · rfl
    · next hnone =>
      have hne := List.find?_eq_none.mp hnone c hc
      simp at hne
  · rw [hpath, removeLoadedCheckpointDescendants, if_neg (by simp [Script.declarationPath])]
    split
    · next found hfound =>
      have heq := List.find?_some hfound
      simp [Script.declarationPath, Script.failedPrefixPath] at heq
    split
    · rfl
    split
    · rfl
    · next hnone =>
      have hne := List.find?_eq_none.mp hnone c hc
      simp at hne

/-- A context that cannot be used is removed with all source checkpoints. -/
theorem removeLoaded_replay {r : Replay} (hr : r ∈ replays policy script store) :
    removeLoadedCheckpointDescendants script r.path store =
      removeSourceCheckpoints script.depsKey store :=
  removeLoaded_context (path_of_mem_replays hr)

theorem okMatches_congr {fields : List (Text × Text)} (h : store' path = store path) :
    okMatches store' path fields = okMatches store path fields := by
  rw [okMatches, okMatches, h]

/-- Contexts and loaded dependencies do not depend on the failed prefixes. -/
theorem replays_congr
    (h : ∀ path, (∀ depsKey engine name, path ≠ .failedPrefix depsKey engine name) →
      store' path = store path) :
    replays policy script store' = replays policy script store ∧
      depsCheckpointExists store' script.depsKey = depsCheckpointExists store script.depsKey := by
  have hdeps : depsCheckpointExists store' script.depsKey =
      depsCheckpointExists store script.depsKey := okMatches_congr (h _ (by simp))
  have hcontext : ∀ path kind prefixHash key,
      (∀ depsKey engine name, path ≠ .failedPrefix depsKey engine name) →
      contextExists policy script store' path kind prefixHash key =
        contextExists policy script store path kind prefixHash key := by
    intro path kind prefixHash key hpath
    rw [contextExists, contextExists, hdeps, okMatches_congr (h path hpath),
      checkpointTimeoutSatisfies, checkpointTimeoutSatisfies, h path hpath]
  refine ⟨?_, hdeps⟩
  have htheorems : theoremContextExists policy script store' =
      theoremContextExists policy script store := by
    funext c
    exact hcontext _ _ _ _ (by simp [Script.contextPath])
  have hdeclarations : declarationContextExists policy script store' =
      declarationContextExists policy script store := by
    funext c
    exact hcontext _ _ _ _ (by simp [Script.declarationPath])
  rw [replays, replays, replayCandidates, replayCandidates, htheorems, hdeclarations]

theorem failedPrefixCheckpoint_congr {c : TheoremCheckpoint}
    (h : store' (script.failedPrefixPath c) = store (script.failedPrefixPath c)) :
    failedPrefixCheckpoint policy script store' c = failedPrefixCheckpoint policy script store c := by
  rw [failedPrefixCheckpoint, failedPrefixCheckpoint, h, checkpointTimeoutSatisfies,
    checkpointTimeoutSatisfies, h]

theorem failedPrefixCheckpoint_eq_none {c : TheoremCheckpoint}
    (h : store (script.failedPrefixPath c) = none) :
    failedPrefixCheckpoint policy script store c = none := by
  rw [failedPrefixCheckpoint, h]
  split
  · rfl
  · rfl

/-- Removing a failed prefix leaves the failed prefixes at other paths. -/
theorem failedPrefixCandidates_removeCheckpoint (c : TheoremCheckpoint) :
    failedPrefixCandidates policy script (removeCheckpoint store (script.failedPrefixPath c)) =
      (failedPrefixCandidates policy script store).filter fun c' ↦
        script.failedPrefixPath c' ≠ script.failedPrefixPath c := by
  rw [failedPrefixCandidates, failedPrefixCandidates]
  split
  · rw [List.filter_filter]
    congr 1
    funext c'
    by_cases hpath : script.failedPrefixPath c' = script.failedPrefixPath c
    · rw [failedPrefixCheckpoint_eq_none (by rw [hpath, removeCheckpoint, Function.update_self])]
      simp [hpath]
    · rw [failedPrefixCheckpoint_congr (by rw [removeCheckpoint, Function.update_of_ne hpath])]
      simp [hpath]
  · rfl

/-- Removing the source checkpoints leaves no failed prefix and no context. -/
theorem candidates_removeSourceCheckpoints :
    failedPrefixCandidates policy script (removeSourceCheckpoints script.depsKey store) = [] ∧
      replays policy script (removeSourceCheckpoints script.depsKey store) = [] ∧
      depsCheckpointExists (removeSourceCheckpoints script.depsKey store) script.depsKey =
        depsCheckpointExists store script.depsKey := by
  refine ⟨?_, ?_, ?_⟩
  · rw [failedPrefixCandidates]
    split
    · rw [List.filter_eq_nil_iff]
      intro c _
      rw [failedPrefixCheckpoint_eq_none]
      · simp
      · simp [removeSourceCheckpoints, Script.failedPrefixPath, StatePath.isSourceCheckpoint]
    · rfl
  · rw [replays]
    split
    · rfl
    rw [replayCandidates, List.append_eq_nil_iff, List.map_eq_nil_iff, List.map_eq_nil_iff,
      List.filter_eq_nil_iff, List.filter_eq_nil_iff]
    constructor
    · intro c _
      simp [theoremContextExists, contextExists, okMatches, removeSourceCheckpoints,
        Script.contextPath, StatePath.isSourceCheckpoint]
    · intro c _
      simp [declarationContextExists, contextExists, okMatches, removeSourceCheckpoints,
        Script.declarationPath, StatePath.isSourceCheckpoint]
  · exact okMatches_congr (by simp [removeSourceCheckpoints, StatePath.isSourceCheckpoint])

/-- Removing the family of the loaded dependencies leaves nothing to start from. -/
theorem candidates_removeDepsFamily :
    failedPrefixCandidates policy script (removeDepsFamily script.depsKey store) = [] ∧
      replays policy script (removeDepsFamily script.depsKey store) = [] ∧
      depsCheckpointExists (removeDepsFamily script.depsKey store) script.depsKey = false := by
  have hsource := @candidates_removeSourceCheckpoints policy script
    (removeCheckpoint store (.depsLoaded script.depsKey))
  have hcomm : removeSourceCheckpoints script.depsKey
      (removeCheckpoint store (.depsLoaded script.depsKey)) =
        removeDepsFamily script.depsKey store := by
    funext path
    rw [removeDepsFamily, removeCheckpoint, removeCheckpoint, removeSourceCheckpoints]
    by_cases hpath : path = .depsLoaded script.depsKey
    · subst hpath
      simp [StatePath.isSourceCheckpoint]
    · rw [Function.update_of_ne hpath, Function.update_of_ne hpath, removeSourceCheckpoints]
  rw [hcomm] at hsource
  refine ⟨hsource.1, hsource.2.1, hsource.2.2.trans ?_⟩
  simp [depsCheckpointExists, okMatches, removeCheckpoint]

/-! ### One retry -/

/-- What a run that asks for another one has chosen and discarded. -/
inductive Discards (unusable : StatePath → Bool) (policy : Policy) (script : Script)
    (store store' : Store) : Prop
  | failedPrefix (c : TheoremCheckpoint) (hmem : c ∈ failedPrefixCandidates policy script store)
      (hlatest : ∀ r ∈ replays policy script store, r.boundary ≤ c.boundary)
      (hbad : unusable (script.failedPrefixPath c) = true)
      (hprefixes : failedPrefixCandidates policy script store' =
        (failedPrefixCandidates policy script store).filter fun c' ↦
          script.failedPrefixPath c' ≠ script.failedPrefixPath c)
      (hreplays : replays policy script store' = replays policy script store)
      (hdeps : depsCheckpointExists store' script.depsKey =
        depsCheckpointExists store script.depsKey)
  | replay (r : Replay) (hr : replayCandidate policy script store = some r)
      (hlater : ∀ c ∈ failedPrefixCandidates policy script store, c.boundary < r.boundary)
      (hbad : unusable r.path = true)
      (hprefixes : failedPrefixCandidates policy script store' = [])
      (hreplays : replays policy script store' = [])
      (hdeps : depsCheckpointExists store' script.depsKey =
        depsCheckpointExists store script.depsKey)
  | depsLoaded (hnoPrefix : failedPrefixCandidates policy script store = [])
      (hnoReplay : replays policy script store = [])
      (hpresent : depsCheckpointExists store script.depsKey = true)
      (hbad : unusable (.depsLoaded script.depsKey) = true)
      (hprefixes : failedPrefixCandidates policy script store' = [])
      (hreplays : replays policy script store' = [])
      (hdeps : depsCheckpointExists store' script.depsKey = false)

/-- A run either ends from a context HOL can use or discards what it chose. -/
theorem runTheoryAction_spec :
    (∃ context store', runTheoryAction unusable policy script store = (.ended context, store') ∧
      ∀ path, context = .state path → unusable path = false) ∨
    ∃ store', runTheoryAction unusable policy script store = (.retryInvalidCheckpoint, store') ∧
      Discards unusable policy script store store' := by
  rw [runTheoryAction]
  split
  · next store₁ _ => exact .inl ⟨.base, store₁, rfl, by simp⟩
  · next path store₁ hselect =>
    obtain ⟨rfl, hchosen⟩ := chosen_of_selectContext hselect
    by_cases hbad : unusable path = true
    · rw [if_pos hbad]
      refine .inr ⟨_, rfl, ?_⟩
      cases hchosen with
      | @failedPrefix c hmem hlatest =>
        rw [removeLoaded_failedPrefix (mem_theorems_of_mem_failedPrefixCandidates hmem)]
        obtain ⟨hreplays, hdeps⟩ := @replays_congr policy script store₁
          (removeCheckpoint store₁ (script.failedPrefixPath c)) fun path hpath ↦
            Function.update_of_ne (hpath _ _ _) _ _
        exact .failedPrefix c hmem hlatest hbad (failedPrefixCandidates_removeCheckpoint c)
          hreplays hdeps
      | @replay r hr hlater =>
        have hmem := (latest_eq_some (replayCandidate_eq_latest ▸ hr)).1
        rw [removeLoaded_replay hmem]
        obtain ⟨hprefixes, hreplays, hdeps⟩ :=
          @candidates_removeSourceCheckpoints policy script store₁
        exact .replay r hr hlater hbad hprefixes hreplays hdeps
      | depsLoaded hprefixes hreplays hdeps =>
        rw [removeLoadedCheckpointDescendants, if_pos rfl]
        obtain ⟨hprefixes', hreplays', hdeps'⟩ := @candidates_removeDepsFamily policy script store₁
        exact .depsLoaded hprefixes hreplays hdeps hbad hprefixes' hreplays' hdeps'
    · rw [if_neg hbad]
      refine .inl ⟨.state path, store₁, rfl, fun path' hpath' ↦ ?_⟩
      rw [← Context.state.inj hpath']
      exact Bool.eq_false_iff.mpr hbad

/-- A run that starts from the base state had nothing else to start from. -/
theorem choices_eq_empty_of_base (hpolicy : policy.checkpoint = true)
    (h : selectContext policy script store = (.base, store')) :
    failedPrefixCandidates policy script store = [] ∧ replays policy script store = [] ∧
      depsCheckpointExists store script.depsKey = false := by
  rw [selectContext, hpolicy, Bool.not_true, if_neg Bool.false_ne_true] at h
  dsimp only at h
  split at h
  · simp at h
  · split at h
    · simp at h
    · simp at h
  · simp at h
  · next hfailed hreplay =>
    rw [latest_eq_none_iff] at hfailed
    rw [replayCandidate_eq_latest, latest_eq_none_iff] at hreplay
    split at h
    · simp at h
    · next hdeps => exact ⟨hfailed, hreplay, Bool.eq_false_iff.mpr hdeps⟩

/-! ### How many retries there can be -/

/-- The paths of the failed prefixes that a run can start from. -/
def prefixPaths (policy : Policy) (script : Script) (store : Store) : Finset StatePath :=
  ((failedPrefixCandidates policy script store).map script.failedPrefixPath).toFinset

/-- How many retries there can be: one for each failed prefix, one for the contexts and one for the
loaded dependencies. -/
def rank (policy : Policy) (script : Script) (store : Store) : ℕ :=
  (prefixPaths policy script store).card + (if replays policy script store = [] then 0 else 1) +
    if depsCheckpointExists store script.depsKey then 1 else 0

theorem prefixPaths_filter (path : StatePath) (candidates : List TheoremCheckpoint) :
    ((candidates.filter fun c ↦ script.failedPrefixPath c ≠ path).map
      script.failedPrefixPath).toFinset =
        ((candidates.map script.failedPrefixPath).toFinset).erase path := by
  ext other
  simp only [List.mem_toFinset, List.mem_map, List.mem_filter, Finset.mem_erase, decide_eq_true_eq]
  constructor
  · rintro ⟨c, ⟨hc, hne⟩, rfl⟩
    exact ⟨hne, c, hc, rfl⟩
  · rintro ⟨hne, c, hc, rfl⟩
    exact ⟨c, ⟨hc, hne⟩, rfl⟩

theorem mem_prefixPaths {c : TheoremCheckpoint}
    (hc : c ∈ failedPrefixCandidates policy script store) :
    script.failedPrefixPath c ∈ prefixPaths policy script store :=
  List.mem_toFinset.mpr (List.mem_map_of_mem hc)

theorem prefixPaths_eq_empty_iff :
    (prefixPaths policy script store).card = 0 ↔ failedPrefixCandidates policy script store = [] := by
  rw [Finset.card_eq_zero, prefixPaths, List.toFinset_eq_empty_iff, List.map_eq_nil_iff]

theorem rank_le : rank policy script store ≤ (prefixPaths policy script store).card + 2 := by
  rw [rank]
  split
  · split
    · omega
    · omega
  · split
    · omega
    · omega

theorem card_prefixPaths_le :
    (prefixPaths policy script store).card ≤ script.theorems.length := by
  refine List.toFinset_card_le _ |>.trans ?_
  rw [List.length_map, failedPrefixCandidates]
  split
  · exact List.length_filter_le _ _
  · exact Nat.zero_le _

/-- The rank after a failed prefix was discarded. -/
theorem rank_of_failedPrefix {c : TheoremCheckpoint}
    (hmem : c ∈ failedPrefixCandidates policy script store)
    (hprefixes : failedPrefixCandidates policy script store' =
      (failedPrefixCandidates policy script store).filter fun c' ↦
        script.failedPrefixPath c' ≠ script.failedPrefixPath c)
    (hreplays : replays policy script store' = replays policy script store)
    (hdeps : depsCheckpointExists store' script.depsKey =
      depsCheckpointExists store script.depsKey) :
    rank policy script store' + 1 = rank policy script store := by
  have hcard : (prefixPaths policy script store').card + 1 =
      (prefixPaths policy script store).card := by
    rw [prefixPaths, hprefixes, prefixPaths_filter]
    exact Finset.card_erase_add_one (mem_prefixPaths hmem)
  rw [rank, rank, hreplays, hdeps]
  omega

/-- Each retry lowers the rank. -/
theorem Discards.rank_lt (h : Discards unusable policy script store store') :
    rank policy script store' < rank policy script store := by
  cases h with
  | failedPrefix c hmem _ _ hprefixes hreplays hdeps =>
    rw [← rank_of_failedPrefix hmem hprefixes hreplays hdeps]
    exact Nat.lt_succ_self _
  | replay r hr _ _ hprefixes hreplays hdeps =>
    have hsome : replays policy script store ≠ [] :=
      List.ne_nil_of_mem (latest_eq_some (replayCandidate_eq_latest ▸ hr)).1
    rw [rank, rank, if_pos hreplays, if_neg hsome, hdeps, prefixPaths_eq_empty_iff.mpr hprefixes]
    omega
  | depsLoaded _ _ hpresent _ hprefixes hreplays hdeps =>
    rw [rank, rank, if_pos hreplays, prefixPaths_eq_empty_iff.mpr hprefixes, hpresent, hdeps]
    simp

/-- Each retry takes away something the next run could have started from, and adds nothing. -/
theorem Discards.choices_ssubset (h : Discards unusable policy script store store') :
    choices policy script store' ⊂ choices policy script store := by
  cases h with
  | failedPrefix c hmem _ _ hprefixes hreplays hdeps =>
    have hgone : script.failedPrefixPath c ∉ choices policy script store' := by
      rw [choices, hprefixes, prefixPaths_filter, hreplays, hdeps]
      simp only [Finset.mem_union, Finset.mem_erase, ne_eq, not_true_eq_false, false_and, false_or,
        not_or, List.mem_toFinset, List.mem_map, not_exists, not_and]
      constructor
      · intro r hr heq
        rcases path_of_mem_replays hr with ⟨c', _, hpath⟩ | ⟨c', _, hpath⟩
        · simp [heq, Script.failedPrefixPath, Script.contextPath] at hpath
        · simp [heq, Script.failedPrefixPath, Script.declarationPath] at hpath
      · split
        · simp [Script.failedPrefixPath]
        · exact Finset.notMem_empty _
    have hpresent : script.failedPrefixPath c ∈ choices policy script store :=
      Finset.mem_union_left _ (Finset.mem_union_left _ (mem_prefixPaths hmem))
    refine Finset.ssubset_iff_subset_ne.mpr ⟨?_, fun heq ↦ hgone (heq ▸ hpresent)⟩
    rw [choices, choices, hprefixes, prefixPaths_filter, hreplays, hdeps]
    exact Finset.union_subset_union_left (Finset.union_subset_union_left (Finset.erase_subset _ _))
  | replay r hr _ _ hprefixes hreplays hdeps =>
    have hmem := (latest_eq_some (replayCandidate_eq_latest ▸ hr)).1
    have hpresent : r.path ∈ choices policy script store :=
      Finset.mem_union_left _ (Finset.mem_union_right _
        (List.mem_toFinset.mpr (List.mem_map_of_mem hmem)))
    have hgone : r.path ∉ choices policy script store' := by
      rw [choices, hprefixes, hreplays]
      rcases path_of_mem_replays hmem with ⟨c, _, hpath⟩ | ⟨c, _, hpath⟩
      · split
        · simp [hpath, Script.contextPath]
        · simp
      · split
        · simp [hpath, Script.declarationPath]
        · simp
    refine Finset.ssubset_iff_subset_ne.mpr ⟨?_, fun heq ↦ hgone (heq ▸ hpresent)⟩
    rw [choices, hprefixes, hreplays, hdeps]
    simp only [List.map_nil, List.toFinset_nil, Finset.empty_union]
    exact Finset.subset_union_right
  | depsLoaded hnoPrefix hnoReplay hpresent _ hprefixes hreplays hdeps =>
    rw [choices, choices, hnoPrefix, hnoReplay, hpresent, hprefixes, hreplays, hdeps]
    simp

/-- As many retries as were asked for are below the rank. -/
theorem lt_rank_of_retry {n : ℕ} (h : (runWithRetries unusable policy script n store).1 =
    .retryInvalidCheckpoint) : n < rank policy script store := by
  induction n generalizing store with
  | zero =>
    rcases @runTheoryAction_spec unusable policy script store with
      ⟨context, store₁, hrun, _⟩ | ⟨store₁, _, hdiscards⟩
    · rw [runWithRetries, hrun] at h
      exact absurd h (by simp)
    · exact (Nat.zero_le _).trans_lt hdiscards.rank_lt
  | succ n ih =>
    rcases @runTheoryAction_spec unusable policy script store with
      ⟨context, store₁, hrun, _⟩ | ⟨store₁, hrun, hdiscards⟩
    · rw [runWithRetries, hrun] at h
      exact absurd h (by simp)
    · rw [runWithRetries, hrun] at h
      exact (Nat.succ_le_of_lt (ih h)).trans_lt hdiscards.rank_lt

/-! ### The one situation in which the retries run out -/

/-- Everything that a run can start from is unusable, in an order in which each retry discards one
failed prefix, then the contexts, then the loaded dependencies. -/
structure OneByOne (unusable : StatePath → Bool) (policy : Policy) (script : Script)
    (store : Store) : Prop where
  prefixes : ∀ c ∈ failedPrefixCandidates policy script store,
    unusable (script.failedPrefixPath c) = true ∧
      ∀ r ∈ replays policy script store, ∃ c' ∈ failedPrefixCandidates policy script store,
        script.failedPrefixPath c' = script.failedPrefixPath c ∧ r.boundary ≤ c'.boundary
  replay : ∀ r, replayCandidate policy script store = some r → unusable r.path = true
  deps : depsCheckpointExists store script.depsKey = true →
    unusable (.depsLoaded script.depsKey) = true

theorem oneByOne_of_rank_eq_zero (h : rank policy script store = 0) :
    OneByOne unusable policy script store := by
  rw [rank] at h
  have hprefixes : failedPrefixCandidates policy script store = [] :=
    prefixPaths_eq_empty_iff.mp (by omega)
  have hreplays : replays policy script store = [] := by
    by_contra hne
    rw [if_neg hne] at h
    omega
  constructor
  · simp [hprefixes]
  · intro r hr
    rw [replayCandidate_eq_latest, hreplays] at hr
    exact absurd hr (by simp [latest])
  · intro hdeps
    rw [hdeps, if_pos rfl] at h
    omega

/-- A retry that lowered the rank by one only has discarded one thing. -/
theorem Discards.oneByOne (h : Discards unusable policy script store store')
    (hrank : rank policy script store = rank policy script store' + 1)
    (hafter : OneByOne unusable policy script store') : OneByOne unusable policy script store := by
  cases h with
  | failedPrefix c hmem hlatest hbad hprefixes hreplays hdeps =>
    constructor
    · intro c' hc'
      by_cases hpath : script.failedPrefixPath c' = script.failedPrefixPath c
      · rw [hpath]
        exact ⟨hbad, fun r hr ↦ ⟨c, hmem, rfl, hlatest r hr⟩⟩
      · have hleft : c' ∈ failedPrefixCandidates policy script store' := by
          rw [hprefixes, List.mem_filter, decide_eq_true_eq]
          exact ⟨hc', hpath⟩
        obtain ⟨hbad', hlatest'⟩ := hafter.prefixes c' hleft
        refine ⟨hbad', fun r hr ↦ ?_⟩
        obtain ⟨c'', hc'', hrest⟩ := hlatest' r (hreplays ▸ hr)
        rw [hprefixes] at hc''
        exact ⟨c'', List.mem_of_mem_filter hc'', hrest⟩
    · intro r hr
      rw [replayCandidate_eq_latest, ← hreplays, ← replayCandidate_eq_latest] at hr
      exact hafter.replay r hr
    · intro hpresent
      exact hafter.deps (hdeps.trans hpresent)
  | replay r hr _ hbad hprefixes hreplays hdeps =>
    have hsome : replays policy script store ≠ [] :=
      List.ne_nil_of_mem (latest_eq_some (replayCandidate_eq_latest ▸ hr)).1
    rw [rank, rank, if_pos hreplays, if_neg hsome, hdeps,
      prefixPaths_eq_empty_iff.mpr hprefixes] at hrank
    have hnone : failedPrefixCandidates policy script store = [] :=
      prefixPaths_eq_empty_iff.mp (by omega)
    constructor
    · simp [hnone]
    · intro r' hr'
      rw [hr, Option.some.injEq] at hr'
      rw [← hr']
      exact hbad
    · intro hpresent
      exact hafter.deps (hdeps.trans hpresent)
  | depsLoaded hnoPrefix hnoReplay hpresent hbad _ _ _ =>
    constructor
    · simp [hnoPrefix]
    · intro r hr
      rw [replayCandidate_eq_latest, hnoReplay] at hr
      exact absurd hr (by simp [latest])
    · intro _
      exact hbad

/-- When as many retries were asked for as the rank allows, each has discarded one thing. -/
theorem oneByOne_of_retry {n : ℕ} (h : (runWithRetries unusable policy script n store).1 =
    .retryInvalidCheckpoint) (hrank : rank policy script store = n + 1) :
    OneByOne unusable policy script store := by
  induction n generalizing store with
  | zero =>
    rcases @runTheoryAction_spec unusable policy script store with
      ⟨context, store₁, hrun, _⟩ | ⟨store₁, _, hdiscards⟩
    · rw [runWithRetries, hrun] at h
      exact absurd h (by simp)
    · have hzero : rank policy script store₁ = 0 := by
        have hlt := hdiscards.rank_lt
        omega
      exact hdiscards.oneByOne (by omega) (oneByOne_of_rank_eq_zero hzero)
  | succ n ih =>
    rcases @runTheoryAction_spec unusable policy script store with
      ⟨context, store₁, hrun, _⟩ | ⟨store₁, hrun, hdiscards⟩
    · rw [runWithRetries, hrun] at h
      exact absurd h (by simp)
    · rw [runWithRetries, hrun] at h
      have hlt := hdiscards.rank_lt
      have hle := lt_rank_of_retry h
      exact hdiscards.oneByOne (by omega) (ih h (by omega))

/-- The situation in which the retries run out. There is no declaration boundary; every theorem has a
failed prefix of its own that a run can start from, none before the latest context; and they, the
latest context and the loaded dependencies are unusable. -/
structure Exhausting (unusable : StatePath → Bool) (policy : Policy) (script : Script)
    (store : Store) : Prop where
  checkpoint : policy.checkpoint = true
  noDeclaration : script.declarations = []
  prefixes : failedPrefixCandidates policy script store = script.theorems
  distinct : (script.theorems.map script.failedPrefixPath).Nodup
  badPrefixes : ∀ c ∈ script.theorems, unusable (script.failedPrefixPath c) = true
  badContext : ∃ r, replayCandidate policy script store = some r ∧ unusable r.path = true
  notBefore : ∀ r ∈ replays policy script store, ∀ c ∈ script.theorems, r.boundary ≤ c.boundary
  depsPresent : depsCheckpointExists store script.depsKey = true
  badDeps : unusable (.depsLoaded script.depsKey) = true

/-- Everything that is left to start from is unusable, and no failed prefix is before a context. -/
structure AllUnusable (unusable : StatePath → Bool) (policy : Policy) (script : Script)
    (store : Store) : Prop where
  prefixes : ∀ c ∈ failedPrefixCandidates policy script store,
    unusable (script.failedPrefixPath c) = true ∧
      ∀ r ∈ replays policy script store, r.boundary ≤ c.boundary
  replay : ∀ r, replayCandidate policy script store = some r → unusable r.path = true
  deps : unusable (.depsLoaded script.depsKey) = true

/-- A retry discards one thing when everything is unusable, and leaves unusable things only. -/
theorem AllUnusable.discards (h : AllUnusable unusable policy script store)
    (hdiscards : Discards unusable policy script store store') :
    AllUnusable unusable policy script store' ∧
      rank policy script store' + 1 = rank policy script store := by
  cases hdiscards with
  | failedPrefix c hmem _ _ hprefixes hreplays hdeps =>
    refine ⟨⟨fun c' hc' ↦ ?_, fun r hr ↦ ?_, h.deps⟩,
      rank_of_failedPrefix hmem hprefixes hreplays hdeps⟩
    · rw [hprefixes] at hc'
      rw [hreplays]
      exact h.prefixes c' (List.mem_of_mem_filter hc')
    · rw [replayCandidate_eq_latest, hreplays, ← replayCandidate_eq_latest] at hr
      exact h.replay r hr
  | replay r hr hlater _ hprefixes hreplays hdeps =>
    have hmem := (latest_eq_some (replayCandidate_eq_latest ▸ hr)).1
    have hnone : failedPrefixCandidates policy script store = [] := by
      rw [List.eq_nil_iff_forall_not_mem]
      intro c hc
      exact absurd ((h.prefixes c hc).2 r hmem) (Nat.not_le_of_lt (hlater c hc))
    refine ⟨⟨by simp [hprefixes], fun r' hr' ↦ ?_, h.deps⟩, ?_⟩
    · rw [replayCandidate_eq_latest, hreplays] at hr'
      exact absurd hr' (by simp [latest])
    · rw [rank, rank, if_pos hreplays, if_neg (List.ne_nil_of_mem hmem), hdeps,
        prefixPaths_eq_empty_iff.mpr hprefixes, prefixPaths_eq_empty_iff.mpr hnone]
      omega
  | depsLoaded hnoPrefix hnoReplay hpresent _ hprefixes hreplays hdeps =>
    refine ⟨⟨by simp [hprefixes], fun r hr ↦ ?_, h.deps⟩, ?_⟩
    · rw [replayCandidate_eq_latest, hreplays] at hr
      exact absurd hr (by simp [latest])
    · rw [rank, rank, if_pos hreplays, if_pos hnoReplay, hpresent, hdeps,
        prefixPaths_eq_empty_iff.mpr hprefixes, prefixPaths_eq_empty_iff.mpr hnoPrefix]
      simp

/-- A run with something to start from asks for another run when everything is unusable. -/
theorem AllUnusable.exists_discards (h : AllUnusable unusable policy script store)
    (hpolicy : policy.checkpoint = true) (hrank : 0 < rank policy script store) :
    ∃ store', runTheoryAction unusable policy script store = (.retryInvalidCheckpoint, store') ∧
      Discards unusable policy script store store' := by
  rcases @runTheoryAction_spec unusable policy script store with
    ⟨context, store₁, hrun, husable⟩ | hretry
  · exfalso
    rw [runTheoryAction] at hrun
    split at hrun
    · next store₂ hselect =>
      obtain ⟨hprefixes, hreplays, hdeps⟩ := choices_eq_empty_of_base hpolicy hselect
      rw [rank, prefixPaths_eq_empty_iff.mpr hprefixes, if_pos hreplays, hdeps] at hrank
      exact absurd hrank (by simp)
    · next path store₂ hselect =>
      have hbad : unusable path = true := by
        cases (chosen_of_selectContext hselect).2 with
        | failedPrefix hmem hlatest => exact (h.prefixes _ hmem).1
        | replay hr hlater => exact h.replay _ hr
        | depsLoaded _ _ _ => exact h.deps
      rw [if_pos hbad] at hrun
      simp at hrun
  · exact hretry

/-- Below the rank every retry is asked for when everything is unusable. -/
theorem AllUnusable.retry (h : AllUnusable unusable policy script store)
    (hpolicy : policy.checkpoint = true) {n : ℕ} (hrank : n < rank policy script store) :
    (runWithRetries unusable policy script n store).1 = .retryInvalidCheckpoint := by
  induction n generalizing store with
  | zero =>
    obtain ⟨store₁, hrun, _⟩ := h.exists_discards hpolicy hrank
    rw [runWithRetries, hrun]
  | succ n ih =>
    obtain ⟨store₁, hrun, hdiscards⟩ := h.exists_discards hpolicy (by omega)
    obtain ⟨hafter, hlower⟩ := h.discards hdiscards
    rw [runWithRetries, hrun]
    exact ih hafter (by omega)

/-- A run that used up its retries was in the exhausting situation. -/
theorem exhausting_of_retry (h : (runTheoryActionCheckpoints unusable policy script store).1 =
    .retryInvalidCheckpoint) : Exhausting unusable policy script store := by
  have hlt := lt_rank_of_retry h
  have hle := @rank_le policy script store
  have hcard := @card_prefixPaths_le policy script store
  have hnoDeclaration : script.declarations = [] := List.length_eq_zero_iff.mp (by omega)
  have hlength : (prefixPaths policy script store).card = script.theorems.length := by omega
  have hrank : rank policy script store = script.theorems.length + 2 := by omega
  have honce := oneByOne_of_retry h (by rw [hnoDeclaration, List.length_nil]; omega)
  -- the failed prefixes are as many as the theorems, so they are those of all theorems
  have hpaths : (prefixPaths policy script store).card ≤
      (failedPrefixCandidates policy script store).length := by
    refine (List.toFinset_card_le _).trans ?_
    rw [List.length_map]
  have hprefixes : failedPrefixCandidates policy script store = script.theorems := by
    rw [failedPrefixCandidates] at hpaths ⊢
    split
    · next hallowed =>
      rw [if_pos hallowed, hlength] at hpaths
      exact List.filter_sublist.eq_of_length_le hpaths
    · next hallowed =>
      rw [if_neg hallowed, hlength] at hpaths
      exact (List.length_eq_zero_iff.mp (Nat.le_zero.mp hpaths)).symm
  have hdistinct : (script.theorems.map script.failedPrefixPath).Nodup := by
    rw [prefixPaths, hprefixes, ← List.length_map script.failedPrefixPath] at hlength
    exact Multiset.toFinset_card_eq_card_iff_nodup.mp hlength
  have hreplays : replays policy script store ≠ [] := by
    intro hnil
    rw [rank, if_pos hnil] at hrank
    split at hrank
    · omega
    · omega
  have hdeps : depsCheckpointExists store script.depsKey = true := by
    by_contra habsent
    rw [rank, if_neg hreplays, if_neg habsent] at hrank
    omega
  have hpolicy : policy.checkpoint = true := by
    by_contra hoff
    rw [Bool.not_eq_true] at hoff
    have hbase : selectContext policy script store = (.base, store) := by
      rw [selectContext, hoff, Bool.not_false, if_pos rfl]
    have hended : runTheoryAction unusable policy script store = (.ended .base, store) := by
      rw [runTheoryAction, hbase]
    rw [runTheoryActionCheckpoints, runWithRetries, hended] at h
    exact absurd h (by simp)
  refine ⟨hpolicy, hnoDeclaration, hprefixes, hdistinct, fun c hc ↦ ?_, ?_, fun r hr c hc ↦ ?_,
    hdeps, honce.deps hdeps⟩
  · exact (honce.prefixes c (hprefixes ▸ hc)).1
  · obtain ⟨r, hr⟩ : ∃ r, replayCandidate policy script store = some r := by
      rw [← Option.ne_none_iff_exists', replayCandidate_eq_latest, ne_eq, latest_eq_none_iff]
      exact hreplays
    exact ⟨r, hr, honce.replay r hr⟩
  · obtain ⟨c', hc', hpath, hle'⟩ := (honce.prefixes c (hprefixes ▸ hc)).2 r hr
    rw [List.inj_on_of_nodup_map hdistinct (hprefixes ▸ hc') hc hpath] at hle'
    exact hle'

/-- In the exhausting situation the retries run out. -/
theorem Exhausting.retry (h : Exhausting unusable policy script store) :
    (runTheoryActionCheckpoints unusable policy script store).1 = .retryInvalidCheckpoint := by
  obtain ⟨r, hr, hbad⟩ := h.badContext
  have hall : AllUnusable unusable policy script store := by
    refine ⟨fun c hc ↦ ?_, fun r' hr' ↦ ?_, h.badDeps⟩
    · rw [h.prefixes] at hc
      exact ⟨h.badPrefixes c hc, fun r hr ↦ h.notBefore r hr c hc⟩
    · rw [hr, Option.some.injEq] at hr'
      rw [← hr']
      exact hbad
  have hreplays : replays policy script store ≠ [] :=
    List.ne_nil_of_mem (latest_eq_some (replayCandidate_eq_latest ▸ hr)).1
  apply hall.retry h.checkpoint
  rw [rank, if_neg hreplays, h.depsPresent, if_pos rfl, prefixPaths, h.prefixes,
    List.toFinset_card_of_nodup h.distinct, List.length_map, h.noDeclaration, List.length_nil]
  omega

/-- The `.ok` text of a checkpoint with some fields. -/
def okText (kind : Text) (fields : List (Text × Text)) : Text :=
  concatWith ['\n'] (["holbuild-checkpoint-ok-v2".toList, "kind=".toList ++ kind] ++
    fields.map fun field ↦ field.1 ++ '=' :: field.2) ++ ['\n']

/-- A script with one theorem and no definition. -/
def oneTheorem : Script where
  depsKey := "d".toList
  engine := "e".toList
  theorems := [{ kind := "theorem".toList, name := "t".toList, safeName := "t".toList, boundary := 9,
                 proofAttrs := [], prefixHash := "p".toList, checkpointKey := "k".toList,
                 failedPrefixOk := okText "failed_prefix".toList [("deps_key".toList, "d".toList)] }]
  declarations := []
  extraOutputs := []

/-- The failed prefix, the context and the loaded dependencies of the theorem are there. -/
def allPresent : Store
  | .depsLoaded _ => some ⟨some (okText "deps_loaded".toList [("deps_key".toList, "d".toList)]), none⟩
  | .theoremContext _ _ _ _ => some ⟨some (okText "theorem_context".toList
      [("deps_key".toList, "d".toList), ("prefix_key".toList, "p".toList),
        ("checkpoint_key".toList, "k".toList)]), none⟩
  | .failedPrefix _ _ _ => some ⟨some (okText "failed_prefix".toList
      [("deps_key".toList, "d".toList)]), some
      (concatWith ['\n'] ["proof_ir_failed_prefix_version=5".toList, "step_count=0".toList,
        "prefix_end=0".toList, "path=".toList, "focus=".toList, "history_count=0".toList])⟩
  | .declarationContext _ _ _ _ => none

end Holbuild.Checkpoints
