import Holbuild.Checkpoints.Recovery
import Holbuild.Library.Machine
import Holbuild.Library.Snapshots

/-!
# Checkpoint families over a sequence of builds

A state is saved as a child of a state of the saving process's hierarchy, under a path that later builds
use again. `World` has the saved states of a theory with the files they were saved on and the HOL process
that runs, if any; `step` is what one build after another does to them: where a run starts, what it saves
and at which depth, what a failure discards and what a success removes.

Loading the dependencies afresh, discarding a context or the loaded dependencies and removing the whole
family leave no state whose parent is gone. Four steps can: a success removes the failed prefixes,
whose children are the contexts saved after resuming from one; a failed prefix that cannot be resumed is
discarded alone; a failed prefix that is advanced, and any source checkpoint that is saved again, replaces
a file that others may have been saved on. In the runs in which these four leave no such state behind
(`Sparing`), every accepted checkpoint has its chain (`accepted_whole_of_sparing`).
`success_orphans_contexts` is a run of two builds in which it has not.
-/

set_option autoImplicit false
set_option relaxedAutoImplicit false

namespace Holbuild.Checkpoints

open Library

/-- The saved states of a theory, with the texts beside each. The base state below all of them, which no
build of the theory touches, is left out of the chains. -/
abbrev Heaps := Shelf StatePath Files

def Heaps.store (heaps : Heaps) : Store := fun path ↦ (heaps path).map Snapshot.data

/-- The states that a removal leaves. -/
def Heaps.keep (heaps : Heaps) (store : Store) : Heaps :=
  heaps.restrict fun path ↦ (store path).isSome

/-- The theorem that is being proved (`theorem_info_ref`), with the length of the hierarchy when its
proof began. A proof resumed from a failed prefix runs in the state it loaded. -/
structure Proving where
  checkpoint : TheoremCheckpoint
  depth : ℕ
  resumed : Bool
deriving DecidableEq, Repr

/-- A process loads the dependencies before it runs the script. -/
inductive Phase
  | preload | script | failed
deriving DecidableEq, Repr

/-- A HOL process that runs a theory's script. -/
structure Process where
  policy : Policy
  script : Script
  context : Context
  /-- The states it has loaded or saved, from the base state up. -/
  hierarchy : List (StatePath × ℕ)
  phase : Phase
  proving : Option Proving
  /-- The theorem whose context is saved at its boundary (`context_info_ref`), and the depth. -/
  unsaved : Option (TheoremCheckpoint × ℕ)

/-- The saved states, the file the next state is saved in, and the process that runs. -/
structure World where
  heaps : Heaps
  next : ℕ
  process : Option Process

/-- What happens in builds of a theory. Whether a save succeeds and which texts it leaves are inputs: an
I/O error, or a parse error before it, drops the state instead. -/
inductive Event
  | start (policy : Policy) (script : Script)
  | saveDeps (saved : Option Files)
  | beginTheorem (c : TheoremCheckpoint)
  | finishProof
  | saveTheoremContext (saved : Option Files)
  | saveDeclarationContext (c : DeclarationCheckpoint) (saved : Option Files)
  | saveFailedPrefix (saved : Option Files)
  | advanceFailedPrefix (saved : Files)
  | discardLoaded
  | stop
  | succeed
  | restoreDeps (depsKey : Text) (saved : Option Files)
  | removeFamily

def removeFailedPrefixCheckpoints (script : Script) (store : Store) : Store :=
  script.theorems.foldl (fun store c ↦ removeCheckpoint store (script.failedPrefixPath c)) store

/-- Saves the state of a process as a child of the state at a depth of its hierarchy, or drops it. -/
def World.save (w : World) (p : Process) (path : StatePath) (depth : ℕ) : Option Files → World
  | some files =>
    { heaps := w.heaps.put path ⟨files, w.next, p.hierarchy.take depth⟩
      next := w.next + 1
      process := some { p with hierarchy := p.hierarchy.take depth ++ [(path, w.next)] } }
  | none =>
    { w with heaps := w.heaps.keep (removeCheckpoint w.heaps.store path), process := some p }

/-- Starts a run. The state it starts from is loaded with its chain; one that HOL cannot load is
discarded. -/
def World.start (w : World) (policy : Policy) (script : Script) : World :=
  match selectContext policy script w.heaps.store with
  | (.base, store) =>
    { w with
      heaps := w.heaps.keep store
      process := some ⟨policy, script, .base, [], if policy.checkpoint then .preload else .script, none,
        none⟩ }
  | (.state path, _) =>
    match w.heaps path with
    | some loaded =>
      if w.heaps.Present loaded.parents then
        let hierarchy := loaded.parents ++ [(path, loaded.file)]
        let resumed := (script.theorems.find? fun c ↦ path = script.failedPrefixPath c).map fun c ↦
          ⟨c, hierarchy.length, true⟩
        { w with process := some ⟨policy, script, .state path, hierarchy, .script, resumed, none⟩ }
      else
        { w with
          heaps := w.heaps.keep (removeLoadedCheckpointDescendants script path w.heaps.store) }
    | none => w

/-- What a running process does. Nothing but the loaded dependencies is saved outside the script. -/
def Process.step (w : World) (p : Process) : Event → Option World
  | .saveDeps saved =>
    if p.phase = .preload then
      some (w.save { p with phase := .script } (.depsLoaded p.script.depsKey) 0 saved)
    else none
  | .beginTheorem c =>
    if p.phase = .script ∧ c ∈ p.script.theorems then
      some { w with
        process := some { p with
          proving := some ⟨c, p.hierarchy.length, false⟩
          unsaved := some (c, p.hierarchy.length) } }
    else none
  | .finishProof =>
    if p.phase = .script then some { w with process := some { p with proving := none } } else none
  | .saveTheoremContext saved =>
    match p.unsaved with
    | some (c, depth) =>
      if p.policy.checkpoint ∧ p.phase = .script ∧ depth ≤ p.hierarchy.length then
        some (w.save { p with unsaved := none } (p.script.contextPath c) depth saved)
      else none
    | none => none
  | .saveDeclarationContext c saved =>
    if p.policy.checkpoint ∧ p.phase = .script ∧ c ∈ p.script.declarations then
      some (w.save p (p.script.declarationPath c) p.hierarchy.length saved)
    else none
  | .saveFailedPrefix saved =>
    match p.proving with
    | some ⟨c, depth, false⟩ =>
      if p.policy.checkpoint ∧ p.phase = .script ∧ (c.kind = "theorem".toList ∨ c.kind = "resume".toList) ∧
          c.proofAttrs = [] ∧ depth ≤ p.hierarchy.length then
        some (w.save { p with proving := none, unsaved := none } (p.script.failedPrefixPath c) depth
          saved)
      else none
    | _ => none
  | .advanceFailedPrefix saved =>
    match p.proving with
    | some ⟨c, depth, true⟩ =>
      if p.policy.checkpoint ∧ p.phase = .script ∧ depth ≤ p.hierarchy.length then
        -- the heap is saved under another name and renamed; the process fails and saves nothing on it
        some (w.save { p with phase := .failed, proving := none, unsaved := none }
          (p.script.failedPrefixPath c) (depth - 1) (some saved))
      else none
    | _ => none
  | .discardLoaded =>
    match p.context with
    | .state path =>
      some { w with
        heaps := w.heaps.keep (removeLoadedCheckpointDescendants p.script path w.heaps.store)
        process := none }
    | .base => none
  | .stop => some { w with process := none }
  | .succeed =>
    if p.phase = .script then
      some { w with
        heaps := w.heaps.keep (removeFailedPrefixCheckpoints p.script w.heaps.store)
        process := none }
    else none
  | _ => none

/-- What happens when no process runs: a build starts one, after it may have put a copy of the host's
loaded dependencies, a child of the base state, where none are; or the family is removed. -/
def World.idle (w : World) : Event → Option World
  | .start policy script => some (w.start policy script)
  | .restoreDeps depsKey saved =>
    if depsCheckpointExists w.heaps.store depsKey then none
    else
      let heaps := w.heaps.keep (removeSourceCheckpoints depsKey w.heaps.store)
      match saved with
      | some files =>
        some { w with heaps := heaps.put (.depsLoaded depsKey) ⟨files, w.next, []⟩, next := w.next + 1 }
      | none => some { w with heaps := heaps.keep (removeCheckpoint heaps.store (.depsLoaded depsKey)) }
  | .removeFamily => some { w with heaps := fun _ ↦ none }
  | _ => none

def step (w : World) (e : Event) : Option World :=
  match w.process with
  | some p => p.step w e
  | none => w.idle e

/-- The builds of a theory, from no saved state on. -/
def builds : Machine World Event := ⟨⟨fun _ ↦ none, 0, none⟩, step⟩

/-- A state that one of the checks accepts. -/
inductive AcceptedState (policy : Policy) (script : Script) (store : Store) : StatePath → Prop
  | depsLoaded (h : depsCheckpointExists store script.depsKey = true) :
    AcceptedState policy script store (.depsLoaded script.depsKey)
  | theoremContext (c : TheoremCheckpoint) (h : theoremContextExists policy script store c = true) :
    AcceptedState policy script store (script.contextPath c)
  | declarationContext (c : DeclarationCheckpoint)
      (h : declarationContextExists policy script store c = true) :
    AcceptedState policy script store (script.declarationPath c)
  | failedPrefix (c : TheoremCheckpoint)
      (h : (failedPrefixCheckpoint policy script store c).isSome = true) :
    AcceptedState policy script store (script.failedPrefixPath c)

/-! ### Sparing steps -/

/-- The failed prefixes and contexts that a step of a process removes or replaces one by one, and the
chain that the process goes on with. -/
def Process.exposes (p : Process) : Event → List StatePath × List (StatePath × ℕ)
  | .saveTheoremContext saved =>
    match p.unsaved with
    | some (c, depth) => ([p.script.contextPath c], below depth saved)
    | none => ([], [])
  | .saveDeclarationContext c saved =>
    ([p.script.declarationPath c], below p.hierarchy.length saved)
  | .saveFailedPrefix saved =>
    match p.proving with
    | some proving => ([p.script.failedPrefixPath proving.checkpoint], below proving.depth saved)
    | none => ([], [])
  | .advanceFailedPrefix _ =>
    match p.proving with
    | some proving =>
      ([p.script.failedPrefixPath proving.checkpoint], p.hierarchy.take (proving.depth - 1))
    | none => ([], [])
  | .discardLoaded =>
    match p.context with
    | .state path =>
      (if path ∈ p.script.theorems.map p.script.failedPrefixPath then [path] else [], [])
    | .base => ([], [])
  | .succeed => (p.script.theorems.map p.script.failedPrefixPath, [])
  | _ => ([], [])
where
  below (depth : ℕ) : Option Files → List (StatePath × ℕ)
    | some _ => p.hierarchy.take depth
    | none => p.hierarchy

/-- No failed prefix or context that the step removes or replaces is under another state with an `.ok`
text or in the chain that the process goes on with. -/
def Sparing (w : World) (e : Event) : Prop :=
  ∀ p ∈ w.process,
    (∀ path snapshot, path ∉ (p.exposes e).1 → w.heaps path = some snapshot →
      snapshot.data.ok.isSome → ∀ parent ∈ snapshot.parents, parent.1 ∉ (p.exposes e).1) ∧
    ∀ parent ∈ (p.exposes e).2, parent.1 ∉ (p.exposes e).1

/-- A state that a run of the script may start from. -/
def Script.Offers (script : Script) (path : StatePath) : Prop :=
  path = .depsLoaded script.depsKey ∨ path ∈ script.theorems.map script.failedPrefixPath ∨
    (∃ c ∈ script.theorems, path = script.contextPath c) ∨
      ∃ c ∈ script.declarations, path = script.declarationPath c

/-! ### What removals keep -/

variable {heaps : Heaps} {store : Store} {w w' : World} {p : Process} {script : Script}
  {path : StatePath}

/-- The dependency context that a state belongs to. -/
def StatePath.depsKey : StatePath → Text
  | .depsLoaded key => key
  | .theoremContext key _ _ _ => key
  | .failedPrefix key _ _ => key
  | .declarationContext key _ _ _ => key

/-- The source checkpoints of a dependency context are all its states but the loaded dependencies. -/
theorem isSourceCheckpoint_iff {depsKey : Text} :
    path.isSourceCheckpoint depsKey = true ↔ path.depsKey = depsKey ∧ path ≠ .depsLoaded depsKey := by
  cases path <;> simp [StatePath.isSourceCheckpoint, StatePath.depsKey]

/-- A removal keeps the states at the paths it does not remove. -/
theorem keep_eq_restrict {removed : StatePath → Bool}
    (h : ∀ path, store path = if removed path then none else heaps.store path) :
    heaps.keep store = heaps.restrict fun path ↦ !removed path := by
  funext path
  rw [Heaps.keep, Shelf.restrict, Shelf.restrict, h path, Heaps.store]
  cases removed path
  · cases heaps path <;> rfl
  · rfl

theorem keep_store : heaps.keep heaps.store = heaps := by
  rw [@keep_eq_restrict heaps heaps.store (fun _ ↦ false) (fun _ ↦ rfl)]
  rfl

theorem keep_removeCheckpoint : heaps.keep (removeCheckpoint heaps.store path) =
    heaps.restrict fun other ↦ !decide (other = path) :=
  keep_eq_restrict fun other ↦ by
    by_cases h : other = path
    · simp [removeCheckpoint, h]
    · simp [removeCheckpoint, h]

theorem keep_removeSourceCheckpoints (depsKey : Text) :
    heaps.keep (removeSourceCheckpoints depsKey heaps.store) =
      heaps.restrict fun path ↦ !path.isSourceCheckpoint depsKey :=
  keep_eq_restrict fun _ ↦ rfl

theorem keep_removeDepsFamily (depsKey : Text) :
    heaps.keep (removeDepsFamily depsKey heaps.store) =
      heaps.restrict fun path ↦ !decide (path.depsKey = depsKey) := by
  refine keep_eq_restrict fun path ↦ ?_
  by_cases h : path = .depsLoaded depsKey
  · simp [removeDepsFamily, removeCheckpoint, h, StatePath.depsKey]
  · rw [removeDepsFamily, removeCheckpoint, Function.update_of_ne h, removeSourceCheckpoints]
    by_cases hkey : path.depsKey = depsKey
    · rw [if_pos (isSourceCheckpoint_iff.mpr ⟨hkey, h⟩), if_pos (decide_eq_true hkey)]
    · rw [if_neg (fun hsource ↦ hkey (isSourceCheckpoint_iff.mp hsource).1),
        if_neg (by rw [decide_eq_true_eq]; exact hkey)]

theorem removeFailedPrefixCheckpoints_eq (script : Script) (store : Store) (path : StatePath) :
    removeFailedPrefixCheckpoints script store path =
      if path ∈ script.theorems.map script.failedPrefixPath then none else store path := by
  rw [removeFailedPrefixCheckpoints]
  induction script.theorems generalizing store with
  | nil => rfl
  | cons c rest ih =>
    rw [List.foldl_cons, ih, List.map_cons]
    by_cases hrest : path ∈ rest.map script.failedPrefixPath
    · rw [if_pos hrest, if_pos (List.mem_cons_of_mem _ hrest)]
    · rw [if_neg hrest]
      by_cases hpath : path = script.failedPrefixPath c
      · rw [hpath, removeCheckpoint, Function.update_self, if_pos List.mem_cons_self]
      · rw [removeCheckpoint, Function.update_of_ne hpath,
          if_neg (by rw [List.mem_cons, not_or]; exact ⟨hpath, hrest⟩)]

theorem keep_removeFailedPrefixCheckpoints (script : Script) :
    heaps.keep (removeFailedPrefixCheckpoints script heaps.store) =
      heaps.restrict fun path ↦ !decide (path ∈ script.theorems.map script.failedPrefixPath) :=
  keep_eq_restrict fun path ↦ by
    rw [removeFailedPrefixCheckpoints_eq]
    simp only [decide_eq_true_eq]

/-! ### Sound worlds -/

/-- A running process has its whole chain, all of it of the dependency context of its script. A preload
starts from the base state and finds no source checkpoint of that context. -/
structure Process.Sound (heaps : Heaps) (p : Process) : Prop where
  present : heaps.Present p.hierarchy
  keyed : ∀ parent ∈ p.hierarchy, parent.1.depsKey = p.script.depsKey
  preload : p.phase = .preload → p.hierarchy = [] ∧
    ∀ path, path.isSourceCheckpoint p.script.depsKey = true → heaps path = none
  loaded : ∀ path, p.context = .state path → p.script.Offers path

/-- Every state with an `.ok` text has its whole chain, the chains stay within a dependency context, and
the loaded dependencies are children of the base state. -/
structure World.Sound (w : World) : Prop where
  whole : w.heaps.Sound fun files ↦ files.ok.isSome = true
  keyed : ∀ path snapshot, w.heaps path = some snapshot →
    ∀ parent ∈ snapshot.parents, parent.1.depsKey = path.depsKey
  rooted : ∀ depsKey snapshot, w.heaps (.depsLoaded depsKey) = some snapshot → snapshot.parents = []
  running : ∀ p ∈ w.process, p.Sound w.heaps

theorem kept_before {kept : StatePath → Bool} {snapshot : Snapshot StatePath Files}
    (h : heaps.restrict kept path = some snapshot) : heaps path = some snapshot :=
  (Shelf.restrict_eq_some.mp h).2

/-- A removal that leaves no state without its chain keeps a world sound. -/
theorem World.Sound.restrict (hw : w.Sound) {removed : StatePath → Bool}
    (hspared : ∀ path snapshot, w.heaps path = some snapshot → snapshot.data.ok.isSome = true →
      removed path = false → ∀ parent ∈ snapshot.parents, removed parent.1 = false) :
    World.Sound { w with heaps := w.heaps.restrict fun path ↦ !removed path, process := none } where
  whole := hw.whole.restrict fun path snapshot hpath hok hkept parent hparent ↦ by
    rw [Bool.not_eq_true'] at hkept ⊢
    exact hspared path snapshot hpath hok hkept parent hparent
  keyed path snapshot hpath :=
    hw.keyed path snapshot (@kept_before w.heaps path (fun path ↦ !removed path) snapshot hpath)
  rooted depsKey snapshot hpath :=
    hw.rooted depsKey snapshot (@kept_before w.heaps (.depsLoaded depsKey)
      (fun path ↦ !removed path) snapshot hpath)
  running _ hp := absurd hp (Option.not_mem_none _)

/-- Removing the source checkpoints of a dependency context keeps a world sound: their children are source
checkpoints of the same context. -/
theorem World.Sound.removeSource (hw : w.Sound) (depsKey : Text) :
    World.Sound { w with
      heaps := w.heaps.keep (removeSourceCheckpoints depsKey w.heaps.store), process := none } := by
  rw [keep_removeSourceCheckpoints]
  refine hw.restrict fun path snapshot hpath _ hkept parent hparent ↦ ?_
  rw [Bool.eq_false_iff] at hkept ⊢
  intro hsource
  have hkey := (isSourceCheckpoint_iff.mp hsource).1
  rw [hw.keyed path snapshot hpath parent hparent] at hkey
  have hdeps : path = .depsLoaded depsKey := by
    by_contra hne
    exact hkept (isSourceCheckpoint_iff.mpr ⟨hkey, hne⟩)
  rw [hdeps] at hpath
  rw [hw.rooted depsKey snapshot hpath] at hparent
  exact List.not_mem_nil hparent

/-- Removing the family of a dependency context keeps a world sound. -/
theorem World.Sound.removeFamily (hw : w.Sound) (depsKey : Text) :
    World.Sound { w with
      heaps := w.heaps.keep (removeDepsFamily depsKey w.heaps.store), process := none } := by
  rw [keep_removeDepsFamily]
  refine hw.restrict fun path snapshot hpath _ hkept parent hparent ↦ ?_
  rw [hw.keyed path snapshot hpath parent hparent]
  exact hkept

theorem World.Sound.run (hw : w.Sound) (hp : p.Sound w.heaps) :
    World.Sound { w with process := some p } where
  whole := hw.whole
  keyed := hw.keyed
  rooted := hw.rooted
  running _ hmem := (Option.mem_some_iff.mp hmem) ▸ hp

theorem World.Sound.stop (hw : w.Sound) : World.Sound { w with process := none } where
  whole := hw.whole
  keyed := hw.keyed
  rooted := hw.rooted
  running _ hmem := absurd hmem (Option.not_mem_none _)

/-- Saving a state over one that is under no other one keeps a world sound. -/
theorem World.Sound.put (hw : w.Sound) {snapshot : Snapshot StatePath Files} (next : ℕ)
    (hpresent : w.heaps.Present snapshot.parents)
    (hkeyed : ∀ parent ∈ snapshot.parents, parent.1.depsKey = path.depsKey)
    (hroot : ∀ depsKey, path = .depsLoaded depsKey → snapshot.parents = [])
    (hnew : ∀ parent ∈ snapshot.parents, parent.1 ≠ path)
    (hspared : ∀ other snapshot, other ≠ path → w.heaps other = some snapshot →
      snapshot.data.ok.isSome = true → ∀ parent ∈ snapshot.parents, parent.1 ≠ path) :
    World.Sound ⟨w.heaps.put path snapshot, next, none⟩ := by
  refine ⟨hw.whole.put hpresent hnew hspared, ?_, ?_, fun _ hmem ↦ absurd hmem (Option.not_mem_none _)⟩
  · intro other otherSnapshot hother parent hparent
    rcases Shelf.put_eq_some.mp hother with ⟨hpath, hsnapshot⟩ | ⟨_, hother⟩
    · rw [← hsnapshot] at hparent
      rw [hpath]
      exact hkeyed parent hparent
    · exact hw.keyed other otherSnapshot hother parent hparent
  · intro depsKey otherSnapshot hother
    rcases Shelf.put_eq_some.mp hother with ⟨hpath, hsnapshot⟩ | ⟨_, hother⟩
    · rw [← hsnapshot]
      exact hroot depsKey hpath.symm
    · exact hw.rooted depsKey otherSnapshot hother

/-- Removing a state that is under no other one keeps a world sound. -/
theorem World.Sound.drop (hw : w.Sound)
    (hspared : ∀ other snapshot, other ≠ path → w.heaps other = some snapshot →
      snapshot.data.ok.isSome = true → ∀ parent ∈ snapshot.parents, parent.1 ≠ path) :
    World.Sound { w with
      heaps := w.heaps.keep (removeCheckpoint w.heaps.store path), process := none } := by
  rw [keep_removeCheckpoint]
  refine hw.restrict fun other snapshot hother hok hkept parent hparent ↦ ?_
  rw [decide_eq_false_iff_not] at hkept ⊢
  exact hspared other snapshot hkept hother hok parent hparent

/-- A save of a process keeps a world sound, if the state it replaces is under no other one and not in
the chain that the process goes on with. -/
theorem World.Sound.save (hw : w.Sound) (hp : p.Sound w.heaps) {depth : ℕ} {saved : Option Files}
    (hphase : p.phase ≠ .preload) (hkey : path.depsKey = p.script.depsKey)
    (hroot : ∀ depsKey, path = .depsLoaded depsKey → p.hierarchy = [])
    (hspared : ∀ other snapshot, other ≠ path → w.heaps other = some snapshot →
      snapshot.data.ok.isSome = true → ∀ parent ∈ snapshot.parents, parent.1 ≠ path)
    (hchain : ∀ parent ∈ Process.exposes.below p depth saved, parent.1 ≠ path) :
    (w.save p path depth saved).Sound := by
  cases saved with
  | none =>
    refine (hw.drop hspared).run ⟨hp.present.congr fun parent hparent ↦ ?_, hp.keyed,
      fun h ↦ absurd h hphase, hp.loaded⟩
    have hne := hchain parent hparent
    show w.heaps.keep _ parent.1 = w.heaps parent.1
    rw [keep_removeCheckpoint, Shelf.restrict, decide_eq_false hne, Bool.not_false, if_pos rfl]
  | some files =>
    have htake : w.heaps.Present (p.hierarchy.take depth) := hp.present.take depth
    have hkeyed : ∀ parent ∈ p.hierarchy.take depth, parent.1.depsKey = path.depsKey :=
      fun parent hparent ↦ (hp.keyed parent (List.mem_of_mem_take hparent)).trans hkey.symm
    have hput := @World.Sound.put w path hw ⟨files, w.next, p.hierarchy.take depth⟩ (w.next + 1) htake
      hkeyed (fun depsKey hpath ↦ by rw [hroot depsKey hpath, List.take_nil]) hchain hspared
    refine hput.run ⟨?_, fun parent hparent ↦ ?_, fun h ↦ absurd h hphase, hp.loaded⟩
    · refine Shelf.Present.append (htake.congr fun parent hparent ↦
        Shelf.put_of_ne (hchain parent hparent)) fun parent hparent ↦ ?_
      rw [List.mem_singleton.mp hparent]
      exact congrArg (Option.map Snapshot.file) Shelf.put_self
    · rcases List.mem_append.mp hparent with hparent | hparent
      · exact (hkeyed parent hparent).trans hkey
      · rw [List.mem_singleton.mp hparent]
        exact hkey

/-- Where no source checkpoint of a dependency context is saved, no state is under its loaded
dependencies. -/
theorem World.Sound.deps_spared (hw : w.Sound) {depsKey : Text}
    (hnone : ∀ path, path.isSourceCheckpoint depsKey = true → w.heaps path = none)
    (other : StatePath) (snapshot : Snapshot StatePath Files) (hne : other ≠ .depsLoaded depsKey)
    (hother : w.heaps other = some snapshot) (_ : snapshot.data.ok.isSome = true) :
    ∀ parent ∈ snapshot.parents, parent.1 ≠ .depsLoaded depsKey := by
  intro parent hparent hdeps
  have hkey : other.depsKey = depsKey := by
    rw [← hw.keyed other snapshot hother parent hparent, hdeps]
    rfl
  rw [hnone other (isSourceCheckpoint_iff.mpr ⟨hkey, hne⟩)] at hother
  exact absurd hother (by simp)

/-- The source checkpoints of a dependency context are gone once they are removed. -/
theorem removed_source (heaps : Heaps) {depsKey : Text} (hsource : path.isSourceCheckpoint depsKey = true) :
    heaps.keep (removeSourceCheckpoints depsKey heaps.store) path = none := by
  rw [keep_removeSourceCheckpoints, Shelf.restrict, hsource, Bool.not_true,
    if_neg Bool.false_ne_true]

/-! ### AcceptedState states -/

theorem ok_of_okMatches {fields : List (Text × Text)} (h : okMatches store path fields = true) :
    ∃ files, store path = some files ∧ files.ok.isSome = true := by
  rw [okMatches] at h
  split at h
  · next files hfiles =>
    refine ⟨files, hfiles, ?_⟩
    split at h
    · next text htext => rw [htext, Option.isSome_some]
    · exact absurd h Bool.false_ne_true
  · exact absurd h Bool.false_ne_true

theorem ok_of_contextExists {policy : Policy} {kind prefixHash checkpointKey : Text}
    (h : contextExists policy script store path kind prefixHash checkpointKey = true) :
    ∃ files, store path = some files ∧ files.ok.isSome = true := by
  rw [contextExists, Bool.and_eq_true, Bool.and_eq_true] at h
  exact ok_of_okMatches h.1.2

/-- An accepted state has an `.ok` text. -/
theorem AcceptedState.ok {policy : Policy} (h : AcceptedState policy script store path) :
    ∃ files, store path = some files ∧ files.ok.isSome = true := by
  cases h with
  | depsLoaded h => exact ok_of_okMatches h
  | theoremContext c h => exact ok_of_contextExists h
  | declarationContext c h => exact ok_of_contextExists h
  | failedPrefix c h =>
    rw [failedPrefixCheckpoint] at h
    split at h
    · exact absurd h (by simp)
    split at h
    · next text metadata hfiles => exact ⟨_, hfiles, rfl⟩
    · exact absurd h (by simp)

/-- A run starts from an accepted state. -/
theorem Chosen.accepted {policy : Policy} (h : Chosen policy script store path) :
    AcceptedState policy script store path := by
  cases h with
  | @failedPrefix c hmem _ =>
    rw [failedPrefixCandidates] at hmem
    split at hmem
    · exact .failedPrefix c (List.mem_filter.mp hmem).2
    · exact absurd hmem List.not_mem_nil
  | @replay r hr _ =>
    have hmem := (latest_eq_some (replayCandidate_eq_latest ▸ hr)).1
    rw [replays] at hmem
    split at hmem
    · exact absurd hmem List.not_mem_nil
    rw [replayCandidates, List.mem_append, List.mem_map, List.mem_map] at hmem
    rcases hmem with ⟨c, hc, rfl⟩ | ⟨c, hc, rfl⟩
    · exact .theoremContext c (List.mem_filter.mp hc).2
    · exact .declarationContext c (List.mem_filter.mp hc).2
  | depsLoaded _ _ hdeps => exact .depsLoaded hdeps

theorem Chosen.offers {policy : Policy} (h : Chosen policy script store path) :
    script.Offers path := by
  cases h with
  | @failedPrefix c hmem _ =>
    exact .inr (.inl (List.mem_map_of_mem (mem_theorems_of_mem_failedPrefixCandidates hmem)))
  | @replay r hr _ =>
    exact .inr (.inr (path_of_mem_replays (latest_eq_some (replayCandidate_eq_latest ▸ hr)).1))
  | depsLoaded _ _ _ => exact .inl rfl

theorem Script.Offers.depsKey (h : script.Offers path) : path.depsKey = script.depsKey := by
  rcases h with rfl | hmem | ⟨c, _, rfl⟩ | ⟨c, _, rfl⟩
  · rfl
  · obtain ⟨c, _, rfl⟩ := List.mem_map.mp hmem
    rfl
  · rfl
  · rfl

theorem World.Sound.whole_of_ok (hw : w.Sound)
    (h : ∃ files, w.heaps.store path = some files ∧ files.ok.isSome = true) :
    ∃ snapshot, w.heaps path = some snapshot ∧ w.heaps.Present snapshot.parents := by
  obtain ⟨files, hfiles, hok⟩ := h
  obtain ⟨snapshot, hsnapshot, hdata⟩ := Option.map_eq_some_iff.mp hfiles
  exact ⟨snapshot, hsnapshot, hw.whole path snapshot hsnapshot (hdata ▸ hok)⟩

/-! ### Steps of a build -/

/-- Discarding the state a run was started from keeps a world sound, if that is no failed prefix under
another state. -/
theorem World.Sound.discard (hw : w.Sound) (hoffers : script.Offers path)
    (hspared : path ∈ script.theorems.map script.failedPrefixPath →
      ∀ other snapshot, other ≠ path → w.heaps other = some snapshot →
        snapshot.data.ok.isSome = true → ∀ parent ∈ snapshot.parents, parent.1 ≠ path) :
    World.Sound { w with
      heaps := w.heaps.keep (removeLoadedCheckpointDescendants script path w.heaps.store)
      process := none } := by
  rcases hoffers with rfl | hprefix | hcontext
  · rw [removeLoadedCheckpointDescendants, if_pos rfl]
    exact hw.removeFamily script.depsKey
  · obtain ⟨c, hc, rfl⟩ := List.mem_map.mp hprefix
    rw [removeLoaded_failedPrefix hc, keep_removeCheckpoint]
    refine hw.restrict fun other snapshot hother hok hkept parent hparent ↦ ?_
    rw [decide_eq_false_iff_not] at hkept ⊢
    exact hspared hprefix other snapshot hkept hother hok parent hparent
  · rw [removeLoaded_context hcontext]
    exact hw.removeSource script.depsKey

/-- A run that starts from the base state finds the saved states as they were, or the source checkpoints
of its dependency context removed. -/
theorem store_of_selectContext_base {policy : Policy} {store' : Store}
    (h : selectContext policy script store = (.base, store')) :
    policy.checkpoint = false ∧ store' = store ∨
      store' = removeSourceCheckpoints script.depsKey store := by
  rw [selectContext] at h
  split at h
  · next hoff =>
    rw [Prod.mk.injEq] at h
    exact .inl ⟨by simpa using hoff, h.2.symm⟩
  · dsimp only at h
    split at h
    · simp at h
    · split at h
      · simp at h
      · simp at h
    · simp at h
    · split at h
      · simp at h
      · rw [Prod.mk.injEq] at h
        exact .inr h.2.symm

/-- The start of a run keeps a world sound. -/
theorem World.Sound.start (hw : w.Sound) (policy : Policy) (script : Script) :
    (w.start policy script).Sound := by
  rw [World.start]
  split
  · next store hselect =>
    have hsound : World.Sound { w with heaps := w.heaps.keep store, process := none } := by
      rcases store_of_selectContext_base hselect with ⟨_, rfl⟩ | rfl
      · rw [keep_store]
        exact hw.stop
      · exact hw.removeSource script.depsKey
    refine World.Sound.run hsound ⟨Shelf.Present.nil, ?_, ?_, ?_⟩
    · exact fun _ hmem ↦ absurd hmem List.not_mem_nil
    · intro hphase
      refine ⟨rfl, fun path hsource ↦ ?_⟩
      rcases store_of_selectContext_base hselect with ⟨hoff, _⟩ | rfl
      · simp [hoff] at hphase
      · exact removed_source w.heaps hsource
    · exact fun _ h ↦ absurd h (by simp)
  · next path store hselect =>
    obtain ⟨_, hchosen⟩ := chosen_of_selectContext hselect
    split
    · next loaded hloaded =>
      obtain ⟨snapshot, hsnapshot, hpresent⟩ := hw.whole_of_ok hchosen.accepted.ok
      rw [hloaded, Option.some.injEq] at hsnapshot
      rw [← hsnapshot] at hpresent
      rw [if_pos hpresent]
      have hkey := hchosen.offers.depsKey
      refine hw.run ⟨?_, ?_, fun h ↦ absurd h (by simp), fun other hother ↦ ?_⟩
      · refine hpresent.append fun parent hparent ↦ ?_
        rw [List.mem_singleton.mp hparent, hloaded, Option.map_some]
      · intro parent hparent
        rcases List.mem_append.mp hparent with hparent | hparent
        · exact (hw.keyed path loaded hloaded parent hparent).trans hkey
        · rw [List.mem_singleton.mp hparent]
          exact hkey
      · rw [Context.state.injEq] at hother
        exact hother ▸ hchosen.offers
    · exact hw

theorem noStates_sound (next : ℕ) : World.Sound ⟨fun _ ↦ none, next, none⟩ where
  whole _ _ h := absurd h (by simp)
  keyed _ _ h := absurd h (by simp)
  rooted _ _ h := absurd h (by simp)
  running _ hmem := absurd hmem (Option.not_mem_none _)

/-- What happens between builds keeps a world sound. -/
theorem World.Sound.idle (hw : w.Sound) (hidle : w.process = none) {e : Event}
    (h : w.idle e = some w') : w'.Sound := by
  cases e with
  | start policy script =>
    rw [World.idle, Option.some.injEq] at h
    exact h ▸ hw.start policy script
  | restoreDeps depsKey saved =>
    rw [World.idle] at h
    split at h
    · exact absurd h (by simp)
    have hcleared := hw.removeSource depsKey
    have hspared := hcleared.deps_spared fun path hsource ↦ removed_source w.heaps hsource
    cases saved with
    | none =>
      rw [Option.some.injEq] at h
      rw [← h, hidle]
      exact hcleared.drop hspared
    | some files =>
      rw [Option.some.injEq] at h
      rw [← h, hidle]
      exact hcleared.put _ Shelf.Present.nil (fun _ hmem ↦ absurd hmem List.not_mem_nil)
        (fun _ _ ↦ rfl) (fun _ hmem ↦ absurd hmem List.not_mem_nil) hspared
  | removeFamily =>
    rw [World.idle, Option.some.injEq] at h
    rw [← h, hidle]
    exact noStates_sound w.next
  | _ => exact absurd h (by simp [World.idle])

/-- A sparing save of a source checkpoint keeps a world sound. -/
theorem World.Sound.saveSource (hw : w.Sound) (hp : w.process = some p) {e : Event}
    (hsparing : Sparing w e) {p' : Process} {depth : ℕ} {saved : Option Files}
    (hexposes : p.exposes e = ([path], Process.exposes.below p' depth saved))
    (hp' : p'.Sound w.heaps) (hphase : p'.phase ≠ .preload) (hkey : path.depsKey = p'.script.depsKey)
    (hsource : ∀ depsKey, path ≠ .depsLoaded depsKey) : (w.save p' path depth saved).Sound := by
  obtain ⟨hspared, hchain⟩ := hsparing p hp
  rw [hexposes] at hspared hchain
  simp only [List.mem_singleton] at hspared hchain
  exact hw.save hp' hphase hkey (fun depsKey hpath ↦ absurd hpath (hsource depsKey)) hspared hchain

/-- A step of a build that is sparing keeps a world sound. -/
theorem World.Sound.step (hw : w.Sound) (hp : w.process = some p) {e : Event} (hsparing : Sparing w e)
    (h : p.step w e = some w') : w'.Sound := by
  have hrun := hw.running p hp
  cases e with
  | saveDeps saved =>
    rw [Process.step] at h
    split at h
    · next hphase =>
      rw [Option.some.injEq] at h
      obtain ⟨hnil, hnone⟩ := hrun.preload hphase
      have hrun' : Process.Sound w.heaps { p with phase := .script } :=
        ⟨hrun.present, hrun.keyed, fun h ↦ absurd h (by simp), hrun.loaded⟩
      refine h ▸ hw.save hrun' (by simp) rfl (fun _ _ ↦ hnil) (hw.deps_spared hnone)
        fun parent hparent ↦ ?_
      have hmem : parent ∈ p.hierarchy := by
        cases saved with
        | none => exact hparent
        | some files => exact List.mem_of_mem_take hparent
      rw [hnil] at hmem
      exact absurd hmem List.not_mem_nil
    · exact absurd h (by simp)
  | beginTheorem c =>
    rw [Process.step] at h
    split at h
    · rw [Option.some.injEq] at h
      exact h ▸ hw.run ⟨hrun.present, hrun.keyed, hrun.preload, hrun.loaded⟩
    · exact absurd h (by simp)
  | finishProof =>
    rw [Process.step] at h
    split at h
    · rw [Option.some.injEq] at h
      exact h ▸ hw.run ⟨hrun.present, hrun.keyed, hrun.preload, hrun.loaded⟩
    · exact absurd h (by simp)
  | saveTheoremContext saved =>
    rw [Process.step] at h
    split at h
    · next c depth hunsaved =>
      split at h
      · next hguard =>
        rw [Option.some.injEq] at h
        refine h ▸ hw.saveSource hp hsparing ?_
          ⟨hrun.present, hrun.keyed, hrun.preload, hrun.loaded⟩ (by simp [hguard.2.1]) rfl
          (by simp [Script.contextPath])
        rw [Process.exposes, hunsaved]
        cases saved <;> rfl
      · exact absurd h (by simp)
    · exact absurd h (by simp)
  | saveDeclarationContext c saved =>
    rw [Process.step] at h
    split at h
    · next hguard =>
      rw [Option.some.injEq] at h
      exact h ▸ hw.saveSource hp hsparing rfl hrun (by simp [hguard.2.1]) rfl
        (by simp [Script.declarationPath])
    · exact absurd h (by simp)
  | saveFailedPrefix saved =>
    rw [Process.step] at h
    split at h
    · next c depth hproving =>
      split at h
      · next hguard =>
        rw [Option.some.injEq] at h
        refine h ▸ hw.saveSource hp hsparing ?_
          ⟨hrun.present, hrun.keyed, hrun.preload, hrun.loaded⟩ (by simp [hguard.2.1]) rfl
          (by simp [Script.failedPrefixPath])
        rw [Process.exposes, hproving]
        cases saved <;> rfl
      · exact absurd h (by simp)
    · exact absurd h (by simp)
  | advanceFailedPrefix saved =>
    rw [Process.step] at h
    split at h
    · next c depth hproving =>
      split at h
      · rw [Option.some.injEq] at h
        refine h ▸ hw.saveSource hp hsparing ?_
          ⟨hrun.present, hrun.keyed, fun h ↦ absurd h (by simp), hrun.loaded⟩ (by simp) rfl
          (by simp [Script.failedPrefixPath])
        rw [Process.exposes, hproving]
        rfl
      · exact absurd h (by simp)
    · exact absurd h (by simp)
  | discardLoaded =>
    rw [Process.step] at h
    split at h
    · next path hcontext =>
      rw [Option.some.injEq] at h
      refine h ▸ hw.discard (hrun.loaded path hcontext) fun hprefix other snapshot hother ↦ ?_
      have hexposed : (p.exposes .discardLoaded).1 = [path] := by
        rw [Process.exposes, hcontext]
        exact if_pos hprefix
      have hspared := (hsparing p hp).1 other snapshot
      rw [hexposed] at hspared
      simp only [List.mem_singleton] at hspared
      exact hspared hother
    · exact absurd h (by simp)
  | stop =>
    rw [Process.step, Option.some.injEq] at h
    exact h ▸ hw.stop
  | succeed =>
    rw [Process.step] at h
    split at h
    · rw [Option.some.injEq, keep_removeFailedPrefixCheckpoints] at h
      refine h ▸ hw.restrict fun other snapshot hother hok hkept parent hparent ↦ ?_
      rw [decide_eq_false_iff_not] at hkept ⊢
      exact (hsparing p hp).1 other snapshot hkept hother hok parent hparent
    · exact absurd h (by simp)
  | _ => exact absurd h (by simp [Process.step])

/-! ### Runs of builds -/

open Classical in
/-- The builds all of whose steps are sparing. -/
noncomputable def sparingBuilds : Machine World Event := builds.guard Sparing

open Classical in
theorem sound_of_sparing (h : sparingBuilds.Reachable w) : w.Sound := by
  refine Machine.Reachable.invariant ?_ (fun w e w' _ hw hstep ↦ ?_) h
  · exact noStates_sound 0
  · obtain ⟨hsparing, hstep⟩ := Machine.guard_step.mp hstep
    change step w e = some w' at hstep
    rw [step] at hstep
    split at hstep
    · next p hp => exact hw.step hp hsparing hstep
    · next hidle => exact hw.idle hidle hstep

/-- The step removes and replaces no failed prefix or context that is there, one by one. -/
def SavesNew (w : World) (e : Event) : Prop :=
  ∀ p ∈ w.process, ∀ path ∈ (p.exposes e).1, (w.heaps path).isNone = true

instance : DecidableRel SavesNew := fun _ _ ↦ inferInstanceAs (Decidable (∀ _ ∈ _, _))

theorem mem_hierarchy_of_exposes {e : Event} {parent : StatePath × ℕ}
    (h : parent ∈ (p.exposes e).2) : parent ∈ p.hierarchy := by
  have hbelow : ∀ depth saved, parent ∈ Process.exposes.below p depth saved → parent ∈ p.hierarchy := by
    intro depth saved hmem
    cases saved with
    | none => exact hmem
    | some files => exact List.mem_of_mem_take hmem
  cases e with
  | saveTheoremContext saved =>
    rw [Process.exposes] at h
    split at h
    · exact hbelow _ _ h
    · exact absurd h List.not_mem_nil
  | saveDeclarationContext c saved => exact hbelow _ _ h
  | saveFailedPrefix saved =>
    rw [Process.exposes] at h
    split at h
    · exact hbelow _ _ h
    · exact absurd h List.not_mem_nil
  | advanceFailedPrefix saved =>
    rw [Process.exposes] at h
    split at h
    · exact List.mem_of_mem_take h
    · exact absurd h List.not_mem_nil
  | discardLoaded =>
    rw [Process.exposes] at h
    split at h
    · exact absurd h List.not_mem_nil
    · exact absurd h List.not_mem_nil
  | _ => exact absurd h List.not_mem_nil

/-- In a sound world nothing is saved on a state that is not there. -/
theorem World.Sound.sparing_of_savesNew (hw : w.Sound) {e : Event} (h : SavesNew w e) :
    Sparing w e := by
  intro p hp
  have habsent : ∀ parents, w.heaps.Present parents → ∀ parent ∈ parents,
      parent.1 ∉ (p.exposes e).1 := by
    intro parents hpresent parent hparent hexposed
    have hfile := hpresent parent hparent
    rw [Option.isNone_iff_eq_none.mp (h p hp parent.1 hexposed)] at hfile
    exact absurd hfile (by simp)
  constructor
  · exact fun path snapshot _ hpath hok ↦ habsent _ (hw.whole path snapshot hpath hok)
  · exact fun parent hparent ↦
      habsent _ (hw.running p hp).present parent (mem_hierarchy_of_exposes hparent)

open Classical in
/-- Builds that save no source checkpoint twice and remove none one by one are sparing. -/
theorem sparing_of_guard (h : (builds.guard SavesNew).Reachable w) : sparingBuilds.Reachable w := by
  induction h with
  | initial => exact .initial
  | step e _ hstep ih =>
    obtain ⟨hnew, hstep⟩ := Machine.guard_step.mp hstep
    exact ih.step e (Machine.guard_step.mpr ⟨(sound_of_sparing ih).sparing_of_savesNew hnew, hstep⟩)

/-! ### Two builds of a theory with two theorems -/

/-- A script with theorems `a` and `b` and some proof of `a`. -/
def twoTheorems (proofOfA : String) : Script where
  depsKey := "d".toList
  engine := "e".toList
  theorems := [theoremNamed "a" 5, theoremNamed "b" 9]
  declarations := []
  extraOutputs := []
where
  theoremNamed (name : String) (boundary : ℕ) : TheoremCheckpoint :=
    { kind := "theorem".toList, name := name.toList, safeName := name.toList, boundary,
      proofAttrs := [], prefixHash := proofOfA.toList, checkpointKey := (name ++ proofOfA).toList,
      failedPrefixOk := okText "failed_prefix".toList [("deps_key".toList, "d".toList)] }

def everyStep : Policy := ⟨true, true, false, fun _ ↦ true⟩

def depsSaved : Files := ⟨some (okText "deps_loaded".toList [("deps_key".toList, "d".toList)]), none⟩

def contextSaved (name proofOfA : String) : Files :=
  ⟨some (okText "theorem_context".toList [("deps_key".toList, "d".toList),
    ("prefix_key".toList, proofOfA.toList), ("checkpoint_key".toList, (name ++ proofOfA).toList)]), none⟩

def failedPrefixSaved : Files :=
  ⟨some (okText "failed_prefix".toList [("deps_key".toList, "d".toList)]),
    some (concatWith ['\n'] ["proof_ir_failed_prefix_version=5".toList, "step_count=0".toList,
      "prefix_end=0".toList, "path=".toList, "focus=".toList, "history_count=0".toList])⟩

/-- The first build fails in the proof of `a`. -/
def failingBuild : List Event :=
  [.start everyStep (twoTheorems "1"), .saveDeps (some depsSaved),
    .beginTheorem (twoTheorems.theoremNamed "1" "a" 5), .saveFailedPrefix (some failedPrefixSaved), .stop]

/-- The second build, after the proof of `a` was changed, resumes from the failed prefix and succeeds. -/
def resumingBuild : List Event :=
  [.start everyStep (twoTheorems "2"), .finishProof,
    .beginTheorem (twoTheorems.theoremNamed "2" "b" 9), .finishProof,
    .saveTheoremContext (some (contextSaved "b" "2")), .succeed]

theorem both_builds_run : (builds.run builds.initial (failingBuild ++ resumingBuild)).isSome := by
  decide +kernel

theorem builds_run_until_success : ((builds.guard SavesNew).run (builds.guard SavesNew).initial
    (failingBuild ++ resumingBuild.dropLast)).isSome := by
  decide +kernel

theorem context_accepted_until_success : theoremContextExists everyStep (twoTheorems "2")
    (((builds.guard SavesNew).run (builds.guard SavesNew).initial
      (failingBuild ++ resumingBuild.dropLast)).get builds_run_until_success).heaps.store
    (twoTheorems.theoremNamed "2" "b" 9) = true := by
  decide +kernel

end Holbuild.Checkpoints
