import Holbuild.ExecAction.Verification
import Holbuild.RemoteExec.Formats
import Holbuild.Library.Literals

/-!
# Attempts at actions

`build_exec.sml`, `exec_action`. A worker hands itself a spec, reads and verifies it, fetches the files it
lists, restores the theories it depends on, and builds the theory or runs the script. `attempt` follows
these steps up to a status or a failure, given what every step outside the program answered
(`Answers`). Only a download of a spec's file and a dependency's restoration can miss something: a blob
that the cache lacks (`MissesBlob`) or a theory by its checked key (`misses_attempt`).

Scope. A step outside the program answers in any way; what it does to files and caches is left out.
-/

set_option autoImplicit false
set_option relaxedAutoImplicit false

namespace Holbuild.ExecAction

open Library

/-! ### Failures of actions -/

/-- How an action fails. -/
inductive ActionFailure
  | proof | tacticTimeout | memory
  | inputMissing (missing : Text)
  | publish | toolchain | disk | specRejected | internal | script | timeout
deriving DecidableEq

def failureName : ActionFailure → Text
  | .proof => "proof".toList
  | .tacticTimeout => "tactic-timeout".toList
  | .memory => "memory".toList
  | .inputMissing _ => "input-missing".toList
  | .publish => "publish".toList
  | .toolchain => "toolchain".toList
  | .disk => "disk".toList
  | .specRejected => "spec-rejected".toList
  | .internal => "internal".toList
  | .script => "script".toList
  | .timeout => "timeout".toList

/-- What a failure says is missing. -/
def ActionFailure.missing : ActionFailure → Option Text
  | .inputMissing missing => some missing
  | _ => none

abbrev Acting := Except ActionFailure

def noSpace : Text := "No space left on device".toList

/-- The failure that any exception but the code's own is. -/
def exceptionFailure (message : Text) : ActionFailure :=
  if noSpace <:+: message then .disk else .internal

/-- A step's error, and whether the cache root's disk was found full after it. -/
structure Trouble where
  message : Text
  full : Bool

def actionFailed (failure : ActionFailure) (trouble : Trouble) : ActionFailure :=
  if noSpace <:+: trouble.message ∨ trouble.full = true then .disk else failure

/-- How a step outside the program ends. -/
inductive Step
  | done
  | refused
  | failed (trouble : Trouble)
  | raised (message : Text)

/-- A step whose own failure is `failure`. -/
def step (failure : ActionFailure) : Step → Acting Unit
  | .done => .ok ()
  | .refused => .error failure
  | .failed trouble => .error (actionFailed failure trouble)
  | .raised message => .error (exceptionFailure message)

/-- How a download from the remote cache ends. -/
inductive Fetched
  | hit
  | miss
  | corrupt (trouble : Trouble)
  | raised (message : Text)

/-- A download; `missed` is the failure when the cache lacks the blob. -/
def fetch (missed : ActionFailure) : Fetched → Acting Unit
  | .hit => .ok ()
  | .miss => .error missed
  | .corrupt trouble => .error (actionFailed .internal trouble)
  | .raised message => .error (exceptionFailure message)

/-- What is known of the death of a HOL process. -/
structure Death where
  oomKilled : Bool
  outOfStore : Bool
  childFailed : Bool
  diskFull : Bool
  timedOut : Bool
  signalled : Bool

def classifyRunFailure (death : Death) : ActionFailure :=
  if death.oomKilled || death.outOfStore then .memory
  else if death.diskFull then .disk
  else if !death.childFailed then .internal
  else if death.timedOut then .tacticTimeout
  else if death.signalled then .internal
  else .proof

/-- How a HOL process ends. -/
inductive Ran
  | finished
  | died (death : Death)
  | raised (message : Text)

def builds : Ran → Acting Unit
  | .finished => .ok ()
  | .died death => .error (classifyRunFailure death)
  | .raised message => .error (exceptionFailure message)

/-- How the process of a run's script ends. -/
inductive ScriptRan
  | ran (process : Ran)
  | overdue
  | unstarted (trouble : Trouble)

/-- A script's failure is its own where a theory's would be its proof's. -/
def scriptFailure (failure : ActionFailure) : ActionFailure :=
  if failure = .proof then .script else failure

def runs : ScriptRan → Acting Unit
  | .ran (.died death) => .error (scriptFailure (classifyRunFailure death))
  | .ran process => builds process
  | .overdue => .error .timeout
  | .unstarted trouble => .error (actionFailed .internal trouble)

/-- What a check of a spec gives. -/
def checked {α : Type} : Checked α → Acting α
  | .ok a => .ok a
  | .error (.specRejected _) => .error .specRejected
  | .error .path => .error .internal

def require (ok : Bool) (failure : ActionFailure) : Acting Unit :=
  if ok then .ok () else .error failure

/-! ### The steps of an action -/

/-- What the steps outside the program answer in one run of `exec_action`. Fetches, and restores and
checks of dependencies, are numbered in the order in which they are asked for. -/
structure Answers where
  /-- Emptying the action root, fetching the spec and reading it. -/
  emptied : Step
  specFetched : Fetched
  specRead : Step
  specText : Text
  /-- Looking for a run's outputs in the remote cache, and whether they are there. -/
  looked : Step
  runDone : Bool
  toolchain : Step
  toolchainKey : Text
  fetched : ℕ → Fetched
  manifests : Step
  restored : ℕ → Step
  parents : ℕ → Step
  /-- The action's own entry, or that of an earlier build, was restored. -/
  restoredEntry : Bool
  prepared : Step
  built : Ran
  script : ScriptRan
  upToDate : Step
  outputs : Step
  published : Step
  /-- The report of the peak memory, beside the staged outputs. -/
  report : Option Text
  /-- The content of the uploaded log, and its size. -/
  log : Option (Text × ℕ)
  logExists : Bool
  wallMs : ℤ

section Attempt

variable (worker : Worker) (answers : Answers)

/-- The files of a spec, fetched one after the other by their hashes. -/
def fetchSpecBlobs : ℕ → List SpecFile → Acting Unit
  | _, [] => .ok ()
  | n, file :: rest => do
    fetch (.inputMissing ("blob ".toList ++ file.sha256)) (answers.fetched n)
    fetchSpecBlobs (n + 1) rest

/-- One step for each dependency, which is missing if the step fails. -/
def eachDep (steps : ℕ → Step) : ℕ → List DepLine → Acting Unit
  | _, [] => .ok ()
  | n, dep :: rest => do
    step (.inputMissing ("theory ".toList ++ dep.key)) (steps n)
    eachDep steps (n + 1) rest

/-- Manifests and dependencies; the libraries' sources are fetched with the other files. -/
def hydrateSpecDeps (deps : List DepLine) : Acting Unit := do
  step .internal answers.manifests
  eachDep answers.restored 0 deps
  eachDep answers.parents 0 deps

/-- A theory's spec is verified and its toolchain there. -/
def admitTheory (spec : ActionSpec) : Acting Unit := do
  checked (verifyActionSpec worker spec)
  step .toolchain answers.toolchain
  let key ← checked (actionTextValue spec "toolchain".toList)
  require (answers.toolchainKey = key) .toolchain

/-- The files that a theory's action fetches. -/
def theoryFiles (spec : ActionSpec) : List SpecFile := spec.source :: spec.inputs ++ spec.libraries

/-- At most one line of the action text may name the source's name. -/
def checkSourceName (spec : ActionSpec) : Checked Unit :=
  check (decide ((textValues spec.actionText "source-name=".toList).length ≤ 1))
    "the action text has more than one source-name line".toList

/-- The build of a theory whose entry could not be restored. -/
def buildTheory (spec : ActionSpec) : Acting Unit := do
  checked (checkSourceName spec)
  step .internal answers.prepared
  builds answers.built
  step .publish answers.upToDate
  step .publish answers.published

def runTheory (spec : ActionSpec) : Acting RemoteExec.Status := do
  admitTheory worker answers spec
  fetchSpecBlobs answers 0 (theoryFiles spec)
  hydrateSpecDeps answers spec.deps
  if answers.restoredEntry then do
    step .publish answers.published
    .ok .cached
  else do
    buildTheory answers spec
    .ok .built

/-- A run's toolchain is there. -/
def admitRun (spec : RunSpec) : Acting Unit := do
  step .toolchain answers.toolchain
  let key ← checked (runTextValue spec "toolchain".toList)
  require (answers.toolchainKey = key) .toolchain

/-- The files that a run fetches. -/
def runFiles (spec : RunSpec) : List SpecFile :=
  ⟨runScriptName, spec.scriptSha256, spec.scriptSize⟩ :: spec.supports ++ spec.contextScripts ++
    spec.libraries

/-- The run of a script in its hydrated root, and the publication of its outputs. -/
def execRun (spec : RunSpec) : Acting Unit := do
  checked (check (spec.runLoads.all (runLoadOk spec)) "a run-load names no library of the spec".toList)
  step .internal answers.prepared
  runs answers.script
  step .script answers.outputs
  step .publish answers.published

def runScript (spec : RunSpec) : Acting RemoteExec.Status := do
  checked (verifyRunSpec worker spec)
  step .internal answers.looked
  if answers.runDone then .ok .cached
  else do
    admitRun answers spec
    fetchSpecBlobs answers 0 (runFiles spec)
    hydrateSpecDeps answers (runSpecDeps spec)
    execRun answers spec
    .ok .built

/-- The spec is in the action root. -/
def handSpec : Acting Unit := do
  step .internal answers.emptied
  fetch .specRejected answers.specFetched
  step .internal answers.specRead

/-- Whether a spec is that of a run. -/
def isRunSpec (text : Text) : Bool := (runSpecHeader ++ ['\n']).isPrefixOf text

/-- The steps of an action. -/
def attempt : Acting RemoteExec.Status := do
  handSpec answers
  if isRunSpec answers.specText then do
    let spec ← checked (parseRunSpec worker answers.specText)
    runScript worker answers spec
  else do
    let spec ← checked (parseActionSpec worker answers.specText)
    runTheory worker answers spec

/-- The key that a spec's text gives, if it can be read. -/
def specKey (text : Text) : Option Text :=
  if isRunSpec text then (parseRunSpec worker text).toOption.map RunSpec.runKey
  else (parseActionSpec worker text).toOption.map ActionSpec.inputKey

/-- The key of the spec that a worker was handed, if it could read it. -/
def readKey : Option Text :=
  match handSpec answers with
  | .ok () => specKey worker answers.specText
  | .error _ => none

end Attempt

/-! ### What can be missing -/

/-- The failure of `act` says that `missing` is missing. -/
def Misses {α : Type} (act : Acting α) (missing : Text) : Prop :=
  ∃ failure, act = .error failure ∧ failure.missing = some missing

section Missing

variable {missing : Text}

theorem misses_bind_iff {α β : Type} {act : Acting α} {next : α → Acting β} :
    Misses (act >>= next) missing ↔
      Misses act missing ∨ ∃ a, act = .ok a ∧ Misses (next a) missing := by
  cases act with
  | error failure =>
    constructor
    · rintro ⟨found, hfound, hmissing⟩
      exact .inl ⟨found, congrArg _ (Except.error.inj hfound), hmissing⟩
    · rintro (⟨found, hfound, hmissing⟩ | ⟨a, ha, -⟩)
      · exact ⟨found, congrArg _ (Except.error.inj hfound), hmissing⟩
      · exact absurd ha nofun
  | ok a =>
    constructor
    · exact fun h ↦ .inr ⟨a, rfl, h⟩
    · rintro (⟨found, hfound, -⟩ | ⟨b, hb, h⟩)
      · exact absurd hfound nofun
      · exact Except.ok.inj hb ▸ h

theorem not_misses_ok {α : Type} {a : α} : ¬ Misses (.ok a : Acting α) missing := by
  rintro ⟨failure, hfailure, -⟩
  exact absurd hfailure nofun

theorem misses_error_iff {α : Type} {failure : ActionFailure} :
    Misses (.error failure : Acting α) missing ↔ failure.missing = some missing := by
  constructor
  · rintro ⟨found, hfound, hmissing⟩
    exact Except.error.inj hfound ▸ hmissing
  · exact fun h ↦ ⟨failure, rfl, h⟩

theorem missing_exceptionFailure (message : Text) : (exceptionFailure message).missing = none := by
  rw [exceptionFailure]
  split_ifs <;> rfl

theorem missing_of_actionFailed {failure : ActionFailure} {trouble : Trouble}
    (h : (actionFailed failure trouble).missing = some missing) : failure.missing = some missing := by
  rw [actionFailed] at h
  split_ifs at h
  · exact absurd h nofun
  · exact h

/-- A step misses only what its own failure does. -/
theorem missing_of_step {failure : ActionFailure} {answer : Step}
    (h : Misses (step failure answer) missing) : failure.missing = some missing := by
  cases answer with
  | done => exact absurd h not_misses_ok
  | refused => exact misses_error_iff.mp h
  | failed trouble => exact missing_of_actionFailed (misses_error_iff.mp h)
  | raised message =>
    have hnone := misses_error_iff.mp h
    rw [missing_exceptionFailure] at hnone
    exact absurd hnone nofun

theorem not_misses_step {failure : ActionFailure} {answer : Step} (hfailure : failure.missing = none) :
    ¬ Misses (step failure answer) missing := by
  intro h
  have hmissing := missing_of_step h
  rw [hfailure] at hmissing
  exact absurd hmissing nofun

theorem misses_fetch_iff {missed : ActionFailure} {answer : Fetched} :
    Misses (fetch missed answer) missing ↔ answer = .miss ∧ missed.missing = some missing := by
  cases answer with
  | hit => exact ⟨fun h ↦ absurd h not_misses_ok, fun h ↦ absurd h.1 nofun⟩
  | miss => exact ⟨fun h ↦ ⟨rfl, misses_error_iff.mp h⟩, fun h ↦ misses_error_iff.mpr h.2⟩
  | corrupt trouble =>
    refine ⟨fun h ↦ ?_, fun h ↦ absurd h.1 nofun⟩
    exact absurd (missing_of_actionFailed (misses_error_iff.mp h)) nofun
  | raised message =>
    refine ⟨fun h ↦ ?_, fun h ↦ absurd h.1 nofun⟩
    have hnone := misses_error_iff.mp h
    rw [missing_exceptionFailure] at hnone
    exact absurd hnone nofun

theorem not_misses_checked {α : Type} {found : Checked α} : ¬ Misses (checked found) missing := by
  rintro ⟨failure, hfailure, hmissing⟩
  cases found with
  | ok a => exact absurd hfailure nofun
  | error rejected =>
    cases rejected with
    | specRejected message => exact absurd (Except.error.inj hfailure ▸ hmissing) nofun
    | path => exact absurd (Except.error.inj hfailure ▸ hmissing) nofun

theorem not_misses_require {ok : Bool} : ¬ Misses (require ok .toolchain) missing := by
  rw [require]
  split_ifs
  · exact not_misses_ok
  · exact fun h ↦ absurd (misses_error_iff.mp h) nofun

theorem missing_classifyRunFailure (death : Death) : (classifyRunFailure death).missing = none := by
  rw [classifyRunFailure]
  split_ifs <;> rfl

theorem not_misses_builds {process : Ran} : ¬ Misses (builds process) missing := by
  cases process with
  | finished => exact not_misses_ok
  | died death =>
    intro h
    have hnone := misses_error_iff.mp h
    rw [missing_classifyRunFailure] at hnone
    exact absurd hnone nofun
  | raised message =>
    intro h
    have hnone := misses_error_iff.mp h
    rw [missing_exceptionFailure] at hnone
    exact absurd hnone nofun

theorem not_misses_runs {script : ScriptRan} : ¬ Misses (runs script) missing := by
  cases script with
  | overdue => exact fun h ↦ absurd (misses_error_iff.mp h) nofun
  | unstarted trouble =>
    exact fun h ↦ absurd (missing_of_actionFailed (misses_error_iff.mp h)) nofun
  | ran process =>
    cases process with
    | finished => exact not_misses_ok
    | raised message => exact @not_misses_builds missing (.raised message)
    | died death =>
      intro h
      have hmissing := misses_error_iff.mp h
      rw [scriptFailure] at hmissing
      split_ifs at hmissing
      · exact absurd hmissing nofun
      · rw [missing_classifyRunFailure] at hmissing
        exact absurd hmissing nofun

theorem eq_hit_of_fetch {missed : ActionFailure} {answer : Fetched}
    (h : fetch missed answer = .ok ()) : answer = .hit := by
  cases answer with
  | hit => rfl
  | miss => exact absurd h nofun
  | corrupt trouble => exact absurd h nofun
  | raised message => exact absurd h nofun

/-- The first file that could not be fetched is one that the cache lacks. -/
def FirstMissed (fetched : ℕ → Fetched) (files : List SpecFile) (hash : Text) : Prop :=
  ∃ i file, files[i]? = some file ∧ file.sha256 = hash ∧ fetched i = .miss ∧
    ∀ j < i, fetched j = .hit

theorem misses_fetchSpecBlobs_iff {answers : Answers} {files : List SpecFile} : ∀ {n : ℕ},
    Misses (fetchSpecBlobs answers n files) missing ↔
      ∃ hash, FirstMissed (fun i ↦ answers.fetched (n + i)) files hash ∧
        missing = "blob ".toList ++ hash := by
  induction files with
  | nil =>
    intro n
    refine ⟨fun h ↦ absurd h not_misses_ok, ?_⟩
    rintro ⟨hash, ⟨i, file, hfile, -⟩, -⟩
    exact absurd hfile nofun
  | cons file rest ih =>
    intro n
    have hshift : (fun i ↦ answers.fetched (n + 1 + i)) = fun i ↦ answers.fetched (n + (i + 1)) := by
      ext i
      rw [Nat.add_assoc, Nat.add_comm 1 i]
    rw [fetchSpecBlobs, misses_bind_iff, misses_fetch_iff]
    constructor
    · rintro (⟨hmiss, hmissing⟩ | ⟨⟨⟩, hhit, hrest⟩)
      · refine ⟨file.sha256, ⟨0, file, rfl, rfl, hmiss, nofun⟩, ?_⟩
        exact (Option.some.inj hmissing).symm
      · obtain ⟨hash, ⟨i, found, hfile, hhash, hmiss, hhits⟩, hmissing⟩ := ih.mp hrest
        refine ⟨hash, ⟨i + 1, found, hfile, hhash, ?_, ?_⟩, hmissing⟩
        · exact (congrFun hshift i).symm.trans hmiss
        · intro j hj
          cases j with
          | zero =>
            show answers.fetched n = .hit
            exact eq_hit_of_fetch hhit
          | succ j => exact (congrFun hshift j).symm.trans (hhits j (Nat.lt_of_succ_lt_succ hj))
    · rintro ⟨hash, ⟨i, found, hfile, rfl, hmiss, hhits⟩, rfl⟩
      cases i with
      | zero =>
        obtain rfl := Option.some.inj hfile
        exact .inl ⟨hmiss, rfl⟩
      | succ i =>
        have hhit : answers.fetched n = .hit := hhits 0 (Nat.succ_pos i)
        refine .inr ⟨(), by rw [hhit]; rfl, ih.mpr ⟨_, ⟨i, found, hfile, rfl, ?_, ?_⟩, rfl⟩⟩
        · exact (congrFun hshift i).trans hmiss
        · exact fun j hj ↦ (congrFun hshift j).trans (hhits (j + 1) (Nat.succ_lt_succ hj))

theorem missing_of_eachDep {steps : ℕ → Step} {deps : List DepLine} : ∀ {n : ℕ},
    Misses (eachDep steps n deps) missing → ∃ dep ∈ deps, missing = "theory ".toList ++ dep.key := by
  induction deps with
  | nil => exact fun h ↦ absurd h not_misses_ok
  | cons dep rest ih =>
    intro n h
    rw [eachDep, misses_bind_iff] at h
    rcases h with h | ⟨-, -, h⟩
    · exact ⟨dep, List.mem_cons_self, (Option.some.inj (missing_of_step h)).symm⟩
    · obtain ⟨found, hfound, hmissing⟩ := ih h
      exact ⟨found, List.mem_cons_of_mem _ hfound, hmissing⟩

theorem missing_of_hydrateSpecDeps {answers : Answers} {deps : List DepLine}
    (h : Misses (hydrateSpecDeps answers deps) missing) :
    ∃ dep ∈ deps, missing = "theory ".toList ++ dep.key := by
  rw [hydrateSpecDeps, misses_bind_iff, misses_bind_iff] at h
  rcases h with h | ⟨-, -, h | ⟨-, -, h⟩⟩
  · exact absurd h (not_misses_step rfl)
  · exact missing_of_eachDep h
  · exact missing_of_eachDep h

end Missing

/-! ### Which blob is missing, and when an action is built -/

section Conditions

variable {worker : Worker} {answers : Answers}

/-- The cache lacks `hash`, a file of the spec, and every step before its download went well. -/
inductive MissesBlob (worker : Worker) (answers : Answers) (hash : Text) : Prop
  | theory (spec : ActionSpec) (handed : handSpec answers = .ok ())
      (kind : isRunSpec answers.specText = false)
      (read : parseActionSpec worker answers.specText = .ok spec)
      (admitted : admitTheory worker answers spec = .ok ())
      (missed : FirstMissed answers.fetched (theoryFiles spec) hash)
  | run (spec : RunSpec) (handed : handSpec answers = .ok ())
      (kind : isRunSpec answers.specText = true)
      (read : parseRunSpec worker answers.specText = .ok spec)
      (verified : verifyRunSpec worker spec = .ok ()) (looked : answers.looked = .done)
      (undone : answers.runDone = false) (admitted : admitRun answers spec = .ok ())
      (missed : FirstMissed answers.fetched (runFiles spec) hash)

/-- Every step of a theory's build went well, and its entry was not restored instead. -/
structure Builds (worker : Worker) (answers : Answers) : Prop where
  handed : handSpec answers = .ok ()
  kind : isRunSpec answers.specText = false
  built : ∃ spec, parseActionSpec worker answers.specText = .ok spec ∧
    admitTheory worker answers spec = .ok () ∧
    fetchSpecBlobs answers 0 (theoryFiles spec) = .ok () ∧
    hydrateSpecDeps answers spec.deps = .ok () ∧ buildTheory answers spec = .ok ()
  unrestored : answers.restoredEntry = false

theorem verified_of_admitTheory {spec : ActionSpec} (h : admitTheory worker answers spec = .ok ()) :
    verifyActionSpec worker spec = .ok () := by
  rw [admitTheory] at h
  obtain ⟨⟨⟩, hverify, -⟩ := bind_eq_ok_iff.mp h
  cases hfound : verifyActionSpec worker spec with
  | ok a => rfl
  | error rejected =>
    rw [hfound] at hverify
    cases rejected <;> exact absurd hverify nofun

theorem not_misses_admitTheory {spec : ActionSpec} {missing : Text} :
    ¬ Misses (admitTheory worker answers spec) missing := by
  rw [admitTheory]
  simp only [misses_bind_iff, not_or, not_exists, not_and]
  exact ⟨not_misses_checked, fun _ _ ↦ ⟨not_misses_step rfl, fun _ _ ↦
    ⟨not_misses_checked, fun _ _ ↦ not_misses_require⟩⟩⟩

theorem not_misses_admitRun {spec : RunSpec} {missing : Text} :
    ¬ Misses (admitRun answers spec) missing := by
  rw [admitRun]
  simp only [misses_bind_iff, not_or, not_exists, not_and]
  exact ⟨not_misses_step rfl, fun _ _ ↦ ⟨not_misses_checked, fun _ _ ↦ not_misses_require⟩⟩

theorem not_misses_buildTheory {spec : ActionSpec} {missing : Text} :
    ¬ Misses (buildTheory answers spec) missing := by
  rw [buildTheory]
  simp only [misses_bind_iff, not_or, not_exists, not_and]
  exact ⟨not_misses_checked, fun _ _ ↦ ⟨not_misses_step rfl, fun _ _ ↦ ⟨not_misses_builds,
    fun _ _ ↦ ⟨not_misses_step rfl, fun _ _ ↦ not_misses_step rfl⟩⟩⟩⟩

theorem not_misses_execRun {spec : RunSpec} {missing : Text} :
    ¬ Misses (execRun answers spec) missing := by
  rw [execRun]
  simp only [misses_bind_iff, not_or, not_exists, not_and]
  exact ⟨not_misses_checked, fun _ _ ↦ ⟨not_misses_step rfl, fun _ _ ↦ ⟨not_misses_runs,
    fun _ _ ↦ ⟨not_misses_step rfl, fun _ _ ↦ not_misses_step rfl⟩⟩⟩⟩

theorem not_misses_handSpec {missing : Text} : ¬ Misses (handSpec answers) missing := by
  rw [handSpec]
  simp only [misses_bind_iff, misses_fetch_iff, not_or, not_exists, not_and]
  exact ⟨not_misses_step rfl, fun _ _ ↦ ⟨fun _ ↦ nofun, fun _ _ ↦ not_misses_step rfl⟩⟩

theorem firstMissed_zero {files : List SpecFile} {hash : Text} :
    FirstMissed (fun i ↦ answers.fetched (0 + i)) files hash ↔
      FirstMissed answers.fetched files hash := by
  simp only [Nat.zero_add]

theorem checked_eq_ok_iff {α : Type} {found : Checked α} {a : α} :
    checked found = .ok a ↔ found = .ok a := by
  cases found with
  | ok b =>
    constructor
    · exact fun h ↦ congrArg _ (Except.ok.inj h)
    · exact fun h ↦ congrArg _ (Except.ok.inj h)
  | error rejected =>
    refine ⟨fun h ↦ ?_, fun h ↦ absurd h nofun⟩
    cases rejected <;> exact absurd h nofun

theorem step_eq_ok_iff {failure : ActionFailure} {answer : Step} :
    step failure answer = .ok () ↔ answer = .done := by
  cases answer with
  | done => exact iff_of_true rfl rfl
  | refused => exact iff_of_false nofun nofun
  | failed trouble => exact iff_of_false nofun nofun
  | raised message => exact iff_of_false nofun nofun

/-- What a theory's action misses: a blob that the cache lacks, or a dependency by its key. -/
theorem misses_runTheory {spec : ActionSpec} {missing : Text}
    (h : Misses (runTheory worker answers spec) missing) :
    admitTheory worker answers spec = .ok () ∧
      ((∃ hash, FirstMissed answers.fetched (theoryFiles spec) hash ∧
        missing = "blob ".toList ++ hash) ∨
      ∃ dep ∈ spec.deps, missing = "theory ".toList ++ dep.key) := by
  rw [runTheory, misses_bind_iff] at h
  obtain ⟨⟨⟩, hadmitted, h⟩ := h.resolve_left not_misses_admitTheory
  refine ⟨hadmitted, ?_⟩
  rw [misses_bind_iff, misses_fetchSpecBlobs_iff] at h
  rcases h with ⟨hash, hmissed, hmissing⟩ | ⟨-, -, h⟩
  · exact .inl ⟨hash, firstMissed_zero.mp hmissed, hmissing⟩
  · rw [misses_bind_iff] at h
    rcases h with h | ⟨-, -, h⟩
    · exact .inr (missing_of_hydrateSpecDeps h)
    · split_ifs at h
      · rw [misses_bind_iff] at h
        obtain ⟨-, -, h⟩ := h.resolve_left (not_misses_step rfl)
        exact absurd h not_misses_ok
      · rw [misses_bind_iff] at h
        obtain ⟨-, -, h⟩ := h.resolve_left not_misses_buildTheory
        exact absurd h not_misses_ok

/-- What a run misses: a blob that the cache lacks, or a dependency by its key. -/
theorem misses_runScript {spec : RunSpec} {missing : Text}
    (h : Misses (runScript worker answers spec) missing) :
    verifyRunSpec worker spec = .ok () ∧
      ((∃ hash, answers.looked = .done ∧ answers.runDone = false ∧
        admitRun answers spec = .ok () ∧ FirstMissed answers.fetched (runFiles spec) hash ∧
        missing = "blob ".toList ++ hash) ∨
      ∃ dep ∈ runSpecDeps spec, missing = "theory ".toList ++ dep.key) := by
  rw [runScript, misses_bind_iff] at h
  obtain ⟨⟨⟩, hverify, h⟩ := h.resolve_left not_misses_checked
  refine ⟨checked_eq_ok_iff.mp hverify, ?_⟩
  rw [misses_bind_iff] at h
  obtain ⟨⟨⟩, hlooked, h⟩ := h.resolve_left (not_misses_step rfl)
  split_ifs at h with hdone
  · exact absurd h not_misses_ok
  · rw [misses_bind_iff] at h
    obtain ⟨⟨⟩, hadmitted, h⟩ := h.resolve_left not_misses_admitRun
    rw [misses_bind_iff, misses_fetchSpecBlobs_iff] at h
    rcases h with ⟨hash, hmissed, hmissing⟩ | ⟨-, -, h⟩
    · refine .inl ⟨hash, step_eq_ok_iff.mp hlooked, ?_, hadmitted, firstMissed_zero.mp hmissed, hmissing⟩
      exact Bool.eq_false_iff.mpr hdone
    · rw [misses_bind_iff, misses_bind_iff] at h
      rcases h with h | ⟨-, -, h | ⟨-, -, h⟩⟩
      · exact .inr (missing_of_hydrateSpecDeps h)
      · exact absurd h not_misses_execRun
      · exact absurd h not_misses_ok

/-- What an action misses: a blob that the cache lacks, or a theory by a SHA-256. -/
theorem misses_attempt {missing : Text} (h : Misses (attempt worker answers) missing) :
    (∃ hash, MissesBlob worker answers hash ∧ missing = "blob ".toList ++ hash) ∨
      ∃ key, sha256Text key = true ∧ missing = "theory ".toList ++ key := by
  rw [attempt, misses_bind_iff] at h
  obtain ⟨⟨⟩, hhand, h⟩ := h.resolve_left not_misses_handSpec
  split_ifs at h with hkind
  · rw [misses_bind_iff] at h
    obtain ⟨spec, hread, h⟩ := h.resolve_left not_misses_checked
    rw [checked_eq_ok_iff] at hread
    obtain ⟨hverify, h⟩ := misses_runScript h
    rcases h with ⟨hash, hlooked, hdone, hadmitted, hmissed, hmissing⟩ | ⟨dep, hdep, hmissing⟩
    · exact .inl ⟨hash, .run spec hhand hkind hread hverify hlooked hdone hadmitted hmissed, hmissing⟩
    · exact .inr ⟨dep.key, (verifiedRun hverify).depKeys dep hdep, hmissing⟩
  · rw [misses_bind_iff] at h
    obtain ⟨spec, hread, h⟩ := h.resolve_left not_misses_checked
    rw [checked_eq_ok_iff] at hread
    obtain ⟨hadmitted, h⟩ := misses_runTheory h
    rcases h with ⟨hash, hmissed, hmissing⟩ | ⟨dep, hdep, hmissing⟩
    · refine .inl ⟨hash, .theory spec hhand (Bool.eq_false_iff.mpr hkind) hread hadmitted hmissed, ?_⟩
      exact hmissing
    · have hverify := verified_of_admitTheory hadmitted
      exact .inr ⟨dep.key, (verifiedAction hverify).depKeys dep hdep, hmissing⟩

/-- A blob that the cache lacks is missing. -/
theorem misses_attempt_of_missesBlob {hash : Text} (h : MissesBlob worker answers hash) :
    Misses (attempt worker answers) ("blob ".toList ++ hash) := by
  cases h with
  | theory spec hhand hkind hread hadmitted hmissed =>
    rw [attempt, misses_bind_iff, hkind]
    refine .inr ⟨(), hhand, misses_bind_iff.mpr (.inr ⟨spec, checked_eq_ok_iff.mpr hread, ?_⟩)⟩
    rw [runTheory]
    refine misses_bind_iff.mpr (.inr ⟨(), hadmitted, misses_bind_iff.mpr (.inl ?_)⟩)
    exact misses_fetchSpecBlobs_iff.mpr ⟨hash, firstMissed_zero.mpr hmissed, rfl⟩
  | run spec hhand hkind hread hverify hlooked hdone hadmitted hmissed =>
    rw [attempt, misses_bind_iff, hkind]
    refine .inr ⟨(), hhand, misses_bind_iff.mpr (.inr ⟨spec, checked_eq_ok_iff.mpr hread, ?_⟩)⟩
    rw [runScript, hdone]
    refine misses_bind_iff.mpr (.inr ⟨(), checked_eq_ok_iff.mpr hverify, ?_⟩)
    refine misses_bind_iff.mpr (.inr ⟨(), step_eq_ok_iff.mpr hlooked, ?_⟩)
    refine misses_bind_iff.mpr (.inr ⟨(), hadmitted, misses_bind_iff.mpr (.inl ?_)⟩)
    exact misses_fetchSpecBlobs_iff.mpr ⟨hash, firstMissed_zero.mpr hmissed, rfl⟩

/-- A theory's action is built exactly when every step of its build goes well. -/
theorem builds_iff :
    Builds worker answers ↔
      isRunSpec answers.specText = false ∧ attempt worker answers = .ok .built := by
  constructor
  · rintro ⟨hhand, hkind, ⟨spec, hread, hadmitted, hfetch, hhydrate, hbuild⟩, hrestored⟩
    refine ⟨hkind, ?_⟩
    rw [attempt, hkind, hhand]
    show checked (parseActionSpec worker answers.specText) >>= _ = _
    rw [hread]
    show runTheory worker answers spec = _
    rw [runTheory, hadmitted, hrestored]
    show fetchSpecBlobs answers 0 (theoryFiles spec) >>= _ = _
    rw [hfetch]
    show hydrateSpecDeps answers spec.deps >>= _ = _
    rw [hhydrate]
    show buildTheory answers spec >>= _ = _
    rw [hbuild]
    rfl
  · rintro ⟨hkind, h⟩
    rw [attempt, hkind] at h
    obtain ⟨⟨⟩, hhand, h⟩ := bind_eq_ok_iff.mp h
    obtain ⟨spec, hread, h⟩ := bind_eq_ok_iff.mp h
    rw [runTheory] at h
    obtain ⟨⟨⟩, hadmitted, h⟩ := bind_eq_ok_iff.mp h
    obtain ⟨⟨⟩, hfetch, h⟩ := bind_eq_ok_iff.mp h
    obtain ⟨⟨⟩, hhydrate, h⟩ := bind_eq_ok_iff.mp h
    split_ifs at h with hrestored
    · obtain ⟨-, -, h⟩ := bind_eq_ok_iff.mp h
      exact absurd (Except.ok.inj h) nofun
    · obtain ⟨⟨⟩, hbuild, -⟩ := bind_eq_ok_iff.mp h
      refine ⟨hhand, hkind, ⟨spec, checked_eq_ok_iff.mp hread, hadmitted, hfetch, hhydrate, hbuild⟩, ?_⟩
      exact Bool.eq_false_iff.mpr hrestored

end Conditions

end Holbuild.ExecAction
