import Holbuild.Library.Raising
import Holbuild.Library.Texts
import Mathlib.Data.List.Infix

/-!
# Remote builds

The driver of a build on remote workers: it exports the plan as a batch, submits and follows it, and
restores or builds the plan when the batch is done or the driver falls back. A batch that failed because a
theory did not fit the cache is submitted again once. What the coordinator, the caches and the builds
answer is arbitrary, and may depend on all that was done before.
-/

set_option autoImplicit false
set_option relaxedAutoImplicit false

namespace Holbuild.Commands

open Library

/-! ### Reasons -/

/-- How many of a batch's theories are done, of how many. -/
structure Progress where
  built : ℕ
  total : ℕ

/-- The theory whose proof failed a batch, and the blob with its build log. -/
structure ProofFailure where
  inputKey : String
  kind : String
  logSha256 : String

/-- How following a batch ends. -/
inductive Outcome
  | done
  | failed (reason : String) (failure : Option ProofFailure)
  | cancelled
  | unfollowable (reason : String)
  | unreachable (reason : String)

def finished (progress : Progress) : String :=
  if progress.total = 0 then "the coordinator reported no theories"
  else "remote workers finished " ++ String.ofList (decimal progress.built) ++ " of " ++
    String.ofList (decimal progress.total) ++ " theories"

/-- A text from the first occurrence of another on. -/
def findSubstring (needle : Text) : Text → Option Text
  | [] => none
  | c :: rest => if needle.isPrefixOf (c :: rest) then some (c :: rest) else findSubstring needle rest

theorem suffix_of_findSubstring {needle : Text} : ∀ {text found : Text},
    findSubstring needle text = some found → found <:+ text := by
  intro text
  induction text with
  | nil => exact fun h ↦ nomatch h
  | cons c rest ih =>
    intro found h
    rw [findSubstring] at h
    split_ifs at h with hprefix
    · rw [← Option.some.inj h]
    · exact (ih h).trans (List.suffix_cons c rest)

def isHex (c : Char) : Bool :=
  c.isDigit || ('a' ≤ c && c ≤ 'f') || ('A' ≤ c && c ≤ 'F')

/-- The key after the first "theory " that is followed by one. -/
def scanTheoryKey (text : Text) : Option String :=
  match _hfound : findSubstring "theory ".toList text with
  | none => none
  | some found =>
    let rest := found.drop 7
    let key := rest.takeWhile isHex
    if key.length = 64 then some (String.ofList key)
    else if _h : rest.length < found.length then scanTheoryKey rest else none
termination_by text.length
decreasing_by exact _h.trans_le (suffix_of_findSubstring _hfound).length_le

/-- The theory that a failed batch is to be submitted again for. -/
def resubmitTheoryKey (reason : String) : Option String :=
  (findSubstring "resubmit: ".toList reason.toList).bind scanTheoryKey

/-- The keys of a batch's theories. -/
def batchKeys (batch : String) : List String :=
  (tokens (· = '\n') batch.toList).filterMap fun line ↦
    match (tokens isSmlSpace line).map String.ofList with
    | "action" :: key :: _ => some key
    | _ => none

/-! ### The driver -/

/-- What is asked of a remote build. -/
structure Options where
  remoteOnly : Bool
  detach : Bool
  attach : Option String

/-- What a build builds: the owners of generated sources, one theory with what it needs, or the plan. -/
inductive Scope
  | owners
  | theory (logical : String)
  | whole
  deriving DecidableEq

/-- How a build failed: whether with an error of its own, and whether it stopped at a theory the caches
lack. -/
structure BuildError where
  handled : Bool
  missing : Bool
  text : String

/-- A step of the driver that others see, with its answer. A restoring build runs no proof. -/
inductive Action
  | exportSpecs (forced : List String) (batch : Except String String)
  | submit (batch : String) (id : Except String String)
  | follow (id : String) (outcome : Outcome) (progress : Progress)
  | cancel (id : String) (done : Bool)
  | drop (keys : List String)
  | fetch (logical : String) (error : Option String)
  | build (restoring : Bool) (scope : Scope) (done : Bool)

/-- Why a remote build fails, by the place that raises. -/
inductive Failure
  | detached (reason : String)
  | stopped (reason : String)
  | cancelled (reason : String)
  | proof (error : String)
  | build (restoring : Bool) (error : BuildError)

/-- What the plan, the coordinator, the caches and the builds answer, after the actions so far. -/
structure World where
  writesSources : Bool
  buildsOwners : List Action → Bool
  exports : List Action → List String → Except String String
  submits : List Action → String → Except String String
  follows : List Action → String → Outcome × Progress
  cancels : List Action → String → Bool
  builds : List Action → Bool → Scope → Option BuildError
  nodeWithInputKey : String → Option String
  remoteProofFailure : List Action → String → ProofFailure → Option String
  theoryKeysDependingOn : String → List String

/-- The actions so far, last first, and whether a local build is said to be needed. -/
structure State where
  actions : List Action
  localBuildNeeded : Bool

def State.start : State := ⟨[], false⟩

/-- The driver's computations. -/
abbrev Driver (α : Type) := Raising State Failure α

open Raising

/-- The driver does something and is answered. -/
def perform {α : Type} (answer : List Action → α) (action : α → Action) : Driver α := fun s ↦
  (.ok (answer s.actions), { s with actions := action (answer s.actions) :: s.actions })

def setLocalBuildNeeded (needed : Bool) : Driver Unit := Raising.modify fun s ↦
  { s with localBuildNeeded := needed }

section

variable (world : World) (options : Options)

/-- A restoring build that stops at a theory the caches lack says that a local build is needed. -/
def build (restoring : Bool) (scope : Scope) : Driver Unit := do
  let error ← perform (world.builds · restoring scope) fun error ↦ .build restoring scope error.isNone
  match error with
  | none => Pure.pure ()
  | some error => do
      if restoring && error.missing then setLocalBuildNeeded true
      raise (.build restoring error)

/-- Builds the plan, under the build's own options. -/
def buildLocally : Driver Unit := build world options.remoteOnly .whole

def fallBack (reason : String) : Driver Unit :=
  if options.detach then raise (.stopped reason)
  else if options.remoteOnly then do
    setLocalBuildNeeded true
    raise (.stopped reason)
  else buildLocally world options

def cancel (batchId : String) : Driver Bool := perform (world.cancels · batchId) (.cancel batchId)

def abandon (batchId reason : String) : Driver Unit := do
  if ← cancel world batchId then fallBack world options (reason ++ ", cancelled the batch")
  else fallBack world options reason

/-- Builds one theory and what it needs. -/
def buildTheoryLocally (logical : String) : Driver Unit := build world options.remoteOnly (.theory logical)

/-- A build's own errors are let go; any other exception is raised on. -/
def ignoreBuildErrors : Failure → Driver Unit
  | .build restoring error =>
      if error.handled then Pure.pure () else raise (.build restoring error)
  | failure => raise failure

def noLog : String := "could not fetch the failed theory's build log"

/-- A batch failed because a proof did: restores what the caches hold and reports the worker's failure, or
builds the theory when there is no log. -/
def proofFailed (failure : ProofFailure) : Driver Unit := do
  Raising.handle (build world true .whole) ignoreBuildErrors
  setLocalBuildNeeded false
  match world.nodeWithInputKey failure.inputKey with
  | none => fallBack world options noLog
  | some logical => do
      let error ← perform (world.remoteProofFailure · logical failure) (.fetch logical)
      match error with
      | some error => raise (.proof error)
      | none =>
          if options.remoteOnly then fallBack world options noLog
          else buildTheoryLocally world options logical

/-- Builds the owners of generated sources first, unless the plan comes from the record. -/
def executeBuild : Driver Unit := do
  if ← (fun s ↦ (.ok (world.buildsOwners s.actions), s) : Driver Bool) then
    build world options.remoteOnly .owners
  buildLocally world options

/-- The theories a batch that failed for resubmission is submitted with: none, a second time. -/
def forcedKeys (resubmit : Bool) (reason : String) : List String :=
  match resubmit, resubmitTheoryKey reason with
  | true, some missing => world.theoryKeysDependingOn missing
  | _, _ => []

theorem forcedKeys_false (reason : String) : forcedKeys world false reason = [] := rfl

mutual

/-- Follows a batch to its end. -/
def finish (resubmit : Bool) (batchId : String) : Driver Unit := do
  let (outcome, progress) ← perform (world.follows · batchId) fun (outcome, progress) ↦
    .follow batchId outcome progress
  match outcome with
  | .done => buildLocally world options
  | .failed _ (some failure) => proofFailed world options failure
  | .failed reason none =>
      let reason := "batch " ++ batchId ++ " " ++ reason ++ "; " ++ finished progress
      if _h : forcedKeys world resubmit reason = [] then fallBack world options reason
      else do
        let forced := forcedKeys world resubmit reason
        -- The forced theories' local entries may be the ones that do not fit.
        perform (fun _ ↦ ()) fun _ ↦ .drop forced
        exportAndSubmit false forced
  | .cancelled =>
      let reason := "batch " ++ batchId ++ " cancelled; " ++ finished progress
      if options.remoteOnly then raise (.cancelled reason) else fallBack world options reason
  | .unfollowable reason =>
      abandon world options batchId ("batch " ++ batchId ++ " " ++ reason ++ "; " ++ finished progress)
  | .unreachable reason =>
      if options.remoteOnly then
        fallBack world options (reason ++ "; " ++ finished progress ++ "; reattach with --attach " ++ batchId)
      else abandon world options batchId (reason ++ "; " ++ finished progress)
termination_by (resubmit.toNat, 0)
decreasing_by
  cases resubmit with
  | false => exact (_h (forcedKeys_false world _)).elim
  | true => exact Prod.Lex.left _ _ Nat.zero_lt_one

def submit (resubmit : Bool) (batch : String) : Driver Unit := do
  if batchKeys batch = [] then buildLocally world options
  else
    match ← perform (world.submits · batch) (.submit batch) with
    | .error reason => fallBack world options reason
    | .ok batchId => if options.detach then Pure.pure () else finish resubmit batchId
termination_by (resubmit.toNat, 1)

def exportAndSubmit (resubmit : Bool) (forced : List String) : Driver Unit := do
  match ← perform (world.exports · forced) (.exportSpecs forced) with
  | .ok batch => submit resubmit batch
  | .error reason => fallBack world options reason
termination_by (resubmit.toNat, 2)

end

/-- A theory that writes sources runs before the rest of the plan is known, so such a plan has no batch. -/
def remoteBuild : Driver Unit := do
  if world.writesSources then
    if options.detach then
      raise (.detached "theories that write SML sources build before the rest is planned")
    else do
      match options.attach with
      | some batchId => let _ ← cancel world batchId
      | none => Pure.pure ()
      executeBuild world options
  else
    match options.attach with
    | some batchId => finish world options true batchId
    | none => exportAndSubmit world options true []

end

/-! ### What a run leaves -/

/-- A build that may run proofs. -/
def Action.IsLocalBuild : Action → Prop
  | .build restoring _ _ => restoring = false
  | _ => False

/-- A build of one theory, and what it needs, that succeeded. -/
def Action.BuiltTheory : Action → Prop
  | .build _ (.theory _) done => done = true
  | _ => False

def Action.isSubmit : Action → Bool
  | .submit _ _ => true
  | _ => false

/-- How many batches were submitted, refused ones included. -/
def submissions (actions : List Action) : ℕ := actions.countP Action.isSubmit

/-- The failures a local build would get past: one that stops the driver where it would build locally
without `--remote-only`, and a restoring build's that stopped at a theory the caches lack. -/
def Failure.NeedsLocalBuild (options : Options) : Failure → Prop
  | .stopped _ => options.remoteOnly = true
  | .build restoring error => restoring = true ∧ error.missing = true
  | _ => False

/-- What holds while the driver still decides. -/
structure Ready (options : Options) (limit : ℕ) (s : State) : Prop where
  restored : options.remoteOnly = true → ∀ action ∈ s.actions, ¬ action.IsLocalBuild
  submitted : submissions s.actions ≤ limit
  flag : s.localBuildNeeded = false

/-- What holds when the driver ends. -/
structure Ended (options : Options) (limit : ℕ) (result : Except Failure Unit) (s : State) : Prop where
  restored : options.remoteOnly = true → ∀ action ∈ s.actions, ¬ action.IsLocalBuild
  submitted : submissions s.actions ≤ limit
  built : result = .ok () → (∀ action ∈ s.actions, ¬ action.BuiltTheory) →
    ∃ restoring earlier, s.actions = .build restoring .whole true :: earlier
  flag : ∀ failure, result = .error failure → (s.localBuildNeeded = true ↔ failure.NeedsLocalBuild options)

variable {world : World} {options : Options} {limit : ℕ} {s : State}

theorem Ready.mono {limit' : ℕ} (h : Ready options limit s) (hle : limit ≤ limit') :
    Ready options limit' s := ⟨h.restored, h.submitted.trans hle, h.flag⟩

/-- An action that neither builds locally nor submits leaves the driver ready. -/
theorem Ready.act (action : Action) (h : Ready options limit s)
    (hlocal : options.remoteOnly = true → ¬ action.IsLocalBuild) (hsubmit : action.isSubmit = false) :
    Ready options limit { s with actions := action :: s.actions } where
  restored honly := by
    intro other hother
    rcases List.mem_cons.mp hother with heq | hmem
    · exact heq ▸ hlocal honly
    · exact h.restored honly other hmem
  submitted := by
    show submissions (action :: s.actions) ≤ limit
    rw [submissions, List.countP_cons_of_neg (by rw [hsubmit]; exact Bool.false_ne_true)]
    exact h.submitted
  flag := h.flag

theorem Ready.submit (batch : String) (answer : Except String String) (h : Ready options limit s) :
    Ready options (limit + 1) { s with actions := .submit batch answer :: s.actions } where
  restored honly := by
    intro other hother
    rcases List.mem_cons.mp hother with heq | hmem
    · rw [heq]
      exact fun hlocal ↦ hlocal
    · exact h.restored honly other hmem
  submitted := by
    show submissions (.submit batch answer :: s.actions) ≤ limit + 1
    rw [submissions, List.countP_cons_of_pos rfl]
    exact Nat.succ_le_succ h.submitted
  flag := h.flag

/-- The rule for a step that is answered. -/
theorem ends_perform {α : Type} {answer : List Action → α} {action : α → Action}
    {Q : Except Failure α → State → Prop}
    (h : Q (.ok (answer s.actions)) { s with actions := action (answer s.actions) :: s.actions }) :
    Ends (perform answer action) s Q := h

/-- A failure that asks for no local build ends a driver that is ready. -/
theorem Ready.failed {failure : Failure} (h : Ready options limit s)
    (hneeds : ¬ failure.NeedsLocalBuild options) :
    Ended options limit (.error failure) s where
  restored := h.restored
  submitted := h.submitted
  built heq := nomatch heq
  flag other heq := by
    rw [← Except.error.inj heq, h.flag]
    exact ⟨fun hflag ↦ absurd hflag Bool.false_ne_true, fun hother ↦ absurd hother hneeds⟩

/-- A failure that asks for a local build ends a driver that has said so. -/
theorem Ready.failedNeeding {failure : Failure} (h : Ready options limit s)
    (hneeds : failure.NeedsLocalBuild options) :
    Ended options limit (.error failure) { s with localBuildNeeded := true } where
  restored := h.restored
  submitted := h.submitted
  built heq := nomatch heq
  flag other heq := by
    rw [← Except.error.inj heq]
    exact ⟨fun _ ↦ hneeds, fun _ ↦ rfl⟩

/-- A build that is done leaves the driver ready; one that raises ends it. -/
theorem ends_build {restoring : Bool} {scope : Scope}
    (h : Ready options limit s) (hlocal : options.remoteOnly = true → restoring = true) :
    Ends (build world restoring scope) s fun result s' ↦
      match result with
      | .ok _ => Ready options limit s' ∧ ∃ earlier, s'.actions = .build restoring scope true :: earlier
      | .error failure => Ended options limit (.error failure) s' ∧
          (∃ error, failure = .build restoring error) := by
  have hact (done : Bool) : Ready options limit
      { s with actions := .build restoring scope done :: s.actions } :=
    h.act _ (fun honly hfalse ↦ absurd (hlocal honly) (by rw [hfalse]; exact Bool.false_ne_true)) rfl
  apply ends_bind
  apply ends_perform
  cases hanswer : world.builds s.actions restoring scope with
  | none => exact ends_pure ⟨hact true, s.actions, rfl⟩
  | some error =>
    show Ends (do if restoring && error.missing then setLocalBuildNeeded true
                  raise (.build restoring error)) _ _
    by_cases hmissing : (restoring && error.missing) = true
    · rw [if_pos hmissing]
      apply ends_bind
      apply ends_modify
      apply ends_raise
      exact ⟨(hact false).failedNeeding (Bool.and_eq_true_iff.mp hmissing), error, rfl⟩
    · rw [if_neg hmissing]
      apply ends_raise
      refine ⟨(hact false).failed fun hneeds ↦ ?_, error, rfl⟩
      exact hmissing (Bool.and_eq_true_iff.mpr hneeds)

/-- A build of the plan ends the driver. -/
theorem ends_buildLocally (h : Ready options limit s) :
    Ends (buildLocally world options) s (Ended options limit) := by
  apply (ends_build h fun honly ↦ honly).mono
  intro result s' hend
  cases result with
  | ok _ =>
    obtain ⟨hready, earlier, hlast⟩ := hend
    exact ⟨hready.restored, hready.submitted, fun _ _ ↦ ⟨_, earlier, hlast⟩, fun _ heq ↦ nomatch heq⟩
  | error failure => exact hend.1

/-- The build of one theory ends the driver, and shows in the actions. -/
theorem ends_buildTheoryLocally {logical : String} (h : Ready options limit s) :
    Ends (buildTheoryLocally world options logical) s (Ended options limit) := by
  apply (ends_build h fun honly ↦ honly).mono
  intro result s' hend
  cases result with
  | ok _ =>
    obtain ⟨hready, earlier, hlast⟩ := hend
    refine ⟨hready.restored, hready.submitted, fun _ hnone ↦ ?_, fun _ heq ↦ nomatch heq⟩
    exact absurd rfl (hnone (.build options.remoteOnly (.theory logical) true)
      (hlast ▸ List.mem_cons_self))
  | error failure => exact hend.1

/-- The restoring build of a failed batch: when the driver goes on, it forgets what the build said. -/
theorem ends_restore (h : Ready options limit s) :
    Ends (Raising.handle (build world true .whole) ignoreBuildErrors) s fun result s' ↦
      match result with
      | .ok _ => Ready options limit { s' with localBuildNeeded := false }
      | .error failure => Ended options limit (.error failure) s' := by
  apply ends_handle
  apply (ends_build h fun _ ↦ rfl).mono
  intro result s' hend
  cases result with
  | ok _ => exact ⟨hend.1.restored, hend.1.submitted, rfl⟩
  | error failure =>
    obtain ⟨hended, error, rfl⟩ := hend
    show Ends (if error.handled = true then _ else _) _ _
    split
    · exact ends_pure ⟨hended.restored, hended.submitted, rfl⟩
    · exact ends_raise hended

/-- A build with its owners of generated sources first ends the driver. -/
theorem ends_executeBuild (h : Ready options limit s) :
    Ends (executeBuild world options) s (Ended options limit) := by
  apply ends_bind
  show Ends (if world.buildsOwners s.actions = true then _ else _) s _
  split
  · apply ends_bind
    apply (ends_build h fun honly ↦ honly).mono
    intro result s' hend
    cases result with
    | ok _ => exact ends_buildLocally hend.1
    | error failure => exact hend.1
  · exact ends_buildLocally h

section

variable (hdetach : options.detach = false)
include hdetach

theorem ends_fallBack {reason : String} (h : Ready options limit s) :
    Ends (fallBack world options reason) s (Ended options limit) := by
  unfold fallBack
  rw [if_neg (by rw [hdetach]; exact Bool.false_ne_true)]
  by_cases honly : options.remoteOnly = true
  · rw [if_pos honly]
    apply ends_bind
    apply ends_modify
    apply ends_raise
    exact h.failedNeeding honly
  · rw [if_neg honly]
    exact ends_buildLocally h

theorem ends_abandon {batchId reason : String} (h : Ready options limit s) :
    Ends (abandon world options batchId reason) s (Ended options limit) := by
  have hready := h.act (.cancel batchId (world.cancels s.actions batchId))
    (fun _ hlocal ↦ hlocal) rfl
  apply ends_bind
  apply ends_perform
  show Ends (if _ then _ else _) _ _
  split
  · exact ends_fallBack hdetach hready
  · exact ends_fallBack hdetach hready

theorem ends_proofFailed {failure : ProofFailure} (h : Ready options limit s) :
    Ends (proofFailed world options failure) s (Ended options limit) := by
  apply ends_bind
  apply (ends_restore h).mono
  intro result s₁ hrestored
  cases result with
  | error failure => exact hrestored
  | ok _ =>
    apply ends_bind
    apply ends_modify
    cases world.nodeWithInputKey failure.inputKey with
    | none => exact ends_fallBack hdetach hrestored
    | some logical =>
      have hready := hrestored.act (.fetch logical
        (world.remoteProofFailure s₁.actions logical failure)) (fun _ hlocal ↦ hlocal) rfl
      apply ends_bind
      apply ends_perform
      cases hanswer : world.remoteProofFailure s₁.actions logical failure with
      | some error =>
        rw [hanswer] at hready
        exact ends_raise (hready.failed id)
      | none =>
        rw [hanswer] at hready
        show Ends (if options.remoteOnly = true then _ else _) _ _
        split
        · exact ends_fallBack hdetach hready
        · exact ends_buildTheoryLocally hready

/-- Submitted for the second time, a batch ends the driver within the submission it takes. -/
theorem ends_finish_of_forced {resubmit : Bool} {batchId : String} (h : Ready options limit s)
    (hagain : resubmit = true → ∀ forced s', Ready options limit s' →
      Ends (exportAndSubmit world options false forced) s' (Ended options (limit + resubmit.toNat))) :
    Ends (finish world options resubmit batchId) s (Ended options (limit + resubmit.toNat)) := by
  have hmono {s' : State} (hready : Ready options limit s') : Ready options (limit + resubmit.toNat) s' :=
    hready.mono (Nat.le_add_right _ _)
  have hready := h.act (.follow batchId (world.follows s.actions batchId).1
    (world.follows s.actions batchId).2) (fun _ hlocal ↦ hlocal) rfl
  rw [finish]
  apply ends_bind
  apply ends_perform
  cases hanswer : world.follows s.actions batchId with
  | mk outcome progress =>
    rw [hanswer] at hready
    cases outcome with
    | done => exact ends_buildLocally (hmono hready)
    | failed reason failure =>
      cases failure with
      | some failure => exact ends_proofFailed hdetach (hmono hready)
      | none =>
        show Ends (if _h : _ then _ else _) _ _
        split
        · exact ends_fallBack hdetach (hmono hready)
        · rename_i hforced
          have htrue : resubmit = true := by
            cases resubmit with
            | false => exact absurd (forcedKeys_false world _) hforced
            | true => rfl
          apply ends_bind
          apply ends_perform
          exact hagain htrue _ _ (hready.act _ (fun _ hlocal ↦ hlocal) rfl)
    | cancelled =>
      show Ends (if options.remoteOnly = true then _ else _) _ _
      split
      · exact ends_raise ((hmono hready).failed id)
      · exact ends_fallBack hdetach (hmono hready)
    | unfollowable reason => exact ends_abandon hdetach (hmono hready)
    | unreachable reason =>
      show Ends (if options.remoteOnly = true then _ else _) _ _
      split
      · exact ends_fallBack hdetach (hmono hready)
      · exact ends_abandon hdetach (hmono hready)

/-- What submitting does, from what following the batch does. -/
theorem ends_submit {resubmit : Bool} {batch : String} (h : Ready options limit s)
    (hfinish : ∀ batchId s', Ready options (limit + 1) s' →
      Ends (finish world options resubmit batchId) s' (Ended options (limit + 1 + resubmit.toNat))) :
    Ends (submit world options resubmit batch) s (Ended options (limit + 1 + resubmit.toNat)) := by
  have hmono {n : ℕ} {s' : State} (hready : Ready options n s') (hle : n ≤ limit + 1) :
      Ready options (limit + 1 + resubmit.toNat) s' := hready.mono (hle.trans (Nat.le_add_right _ _))
  rw [submit]
  split
  · exact ends_buildLocally (hmono h (Nat.le_succ limit))
  · have hready := h.submit batch (world.submits s.actions batch)
    apply ends_bind
    apply ends_perform
    cases hanswer : world.submits s.actions batch with
    | error reason =>
      rw [hanswer] at hready
      exact ends_fallBack hdetach (hmono hready le_rfl)
    | ok batchId =>
      rw [hanswer] at hready
      show Ends (if options.detach = true then _ else _) _ _
      rw [if_neg (by rw [hdetach]; exact Bool.false_ne_true)]
      exact hfinish batchId _ hready

theorem ends_exportAndSubmit {resubmit : Bool} {forced : List String} (h : Ready options limit s)
    (hfinish : ∀ batchId s', Ready options (limit + 1) s' →
      Ends (finish world options resubmit batchId) s' (Ended options (limit + 1 + resubmit.toNat))) :
    Ends (exportAndSubmit world options resubmit forced) s (Ended options (limit + 1 + resubmit.toNat)) := by
  have hready := h.act (.exportSpecs forced (world.exports s.actions forced))
    (fun _ hlocal ↦ hlocal) rfl
  rw [exportAndSubmit]
  apply ends_bind
  apply ends_perform
  cases hanswer : world.exports s.actions forced with
  | error reason =>
    rw [hanswer] at hready
    exact ends_fallBack hdetach (hready.mono ((Nat.le_succ limit).trans (Nat.le_add_right _ _)))
  | ok batch =>
    rw [hanswer] at hready
    exact ends_submit hdetach hready hfinish

/-- Following a batch submits at most once more. -/
theorem ends_finish {resubmit : Bool} {batchId : String} (h : Ready options limit s) :
    Ends (finish world options resubmit batchId) s (Ended options (limit + resubmit.toNat)) := by
  have hlast (n : ℕ) (batchId : String) (s' : State) (hready : Ready options n s') :
      Ends (finish world options false batchId) s' (Ended options (n + false.toNat)) :=
    ends_finish_of_forced hdetach hready fun hfalse ↦ absurd hfalse Bool.false_ne_true
  apply ends_finish_of_forced hdetach h
  rintro rfl forced s' hready
  exact ends_exportAndSubmit hdetach hready fun batchId s'' ↦ hlast (limit + 1) batchId s''

end

/-- A build that attaches to a batch submits at most one more. -/
def Options.submissionLimit (options : Options) : ℕ := if options.attach.isSome then 1 else 2

theorem ready_start : Ready options 0 State.start where
  restored _ _ hmem := nomatch hmem
  submitted := le_rfl
  flag := rfl

/-- However the coordinator, the caches and the builds answer, a build that does not detach runs no proof
under `--remote-only`, submits at most two batches, returns only right after a build of the whole plan that
succeeded unless it built a single theory, and asks for a local build exactly when one would go on. -/
theorem remoteBuild_ended (world : World) (options : Options) (hdetach : options.detach = false) :
    Ends (remoteBuild world options) State.start (Ended options options.submissionLimit) := by
  have hready : Ready options options.submissionLimit State.start := ready_start.mono (Nat.zero_le _)
  unfold remoteBuild
  split
  · rw [if_neg (by rw [hdetach]; exact Bool.false_ne_true)]
    cases options.attach with
    | none => exact ends_executeBuild hready
    | some batchId =>
      apply ends_bind
      apply ends_perform
      exact ends_executeBuild (hready.act _ (fun _ hlocal ↦ hlocal) rfl)
  · unfold Options.submissionLimit
    cases options.attach with
    | none => exact ends_exportAndSubmit hdetach ready_start fun _ _ ↦ ends_finish hdetach
    | some batchId => exact ends_finish hdetach ready_start

/-- A world in which the batch followed failed for a proof whose log cannot be fetched, the theory builds
here, and the caches lack another. -/
def unlogged : World where
  writesSources := false
  buildsOwners _ := false
  exports _ _ := .ok ""
  submits _ _ := .error "refused"
  follows _ _ := (.failed "failed (proof)" (some ⟨"0a", "proof", "1b"⟩), ⟨1, 3⟩)
  cancels _ _ := true
  builds _ restoring _ := if restoring then some ⟨true, true, "other is not in the remote cache"⟩ else none
  nodeWithInputKey _ := some "broken"
  remoteProofFailure _ _ _ := none
  theoryKeysDependingOn _ := []

/-- A world in which the batch followed is done, and the restoring build meets a full disk. -/
def fullDisk : World :=
  { unlogged with
    follows := fun _ _ ↦ (.done, ⟨3, 3⟩)
    builds := fun _ _ _ ↦ some ⟨true, false, "No space left on device"⟩ }

theorem remoteBuild_ended_fullDisk :
    (Options.mk true false (some "7")).detach = false ∧
      Ends (remoteBuild fullDisk ⟨true, false, some "7"⟩) State.start
        (Ended ⟨true, false, some "7"⟩ (Options.submissionLimit ⟨true, false, some "7"⟩)) :=
  ⟨rfl, remoteBuild_ended fullDisk ⟨true, false, some "7"⟩ rfl⟩

/-- The run that returns has built only the failed theory, and the run that stops under `--remote-only` asks
for no local build. -/
theorem unlogged_returns_fullDisk_unflagged :
    ((remoteBuild unlogged ⟨false, false, some "7"⟩ State.start).1 = .ok () ∧
      ∃ earlier, (remoteBuild unlogged ⟨false, false, some "7"⟩ State.start).2.actions =
        .build false (.theory "broken") true :: earlier ∧
        ∀ restoring, .build restoring .whole true ∉ earlier) ∧
    (remoteBuild fullDisk ⟨true, false, some "7"⟩ State.start).1 =
        .error (.build true ⟨true, false, "No space left on device"⟩) ∧
      (remoteBuild fullDisk ⟨true, false, some "7"⟩ State.start).2.localBuildNeeded = false := by
  have hunlogged : remoteBuild unlogged ⟨false, false, some "7"⟩ =
      finish unlogged ⟨false, false, some "7"⟩ true "7" := rfl
  have hfull : remoteBuild fullDisk ⟨true, false, some "7"⟩ =
      finish fullDisk ⟨true, false, some "7"⟩ true "7" := rfl
  rw [hunlogged, hfull, finish, finish]
  refine ⟨⟨rfl, _, rfl, ?_⟩, rfl, rfl⟩
  intro restoring hmem
  simp [unlogged, State.start] at hmem

end Holbuild.Commands
