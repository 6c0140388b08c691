import Holbuild.Library.Machine
import Holbuild.Library.Pools
import Holbuild.RemoteExec.Tables

/-!
# Asking the cache for entries

The calls of `_in_cache` in one event loop, the checks they share, and `_forget_cache_findings`. A check is
started by the call that creates its task (`Event.call`); the task begins later, reads
`cache_forgotten` then (`begin`), waits for the request semaphore, sends its request (`send`) and has
its response (`respond`), in any order with everything else. Its done callback (`done`) and the calls that
wait for it (`answer`) run after it finished. `sweep` drops old findings.

The loop's clock is not negative, which the default of `found_in_cache.get` relies on. The code does not
keep which check a finding is from, nor how many times the findings had been forgotten when a call began, a
check was started or a request was sent. These are kept here, and no step depends on them: a call begins
after the `n`th forget when its number is at least `n`, and a request was sent before it when its number
is less.

`Cache.Sound` is the invariant and `cache_checks_coherent` the result.
-/

set_option autoImplicit false
set_option relaxedAutoImplicit false

namespace Holbuild.RemoteExec.CacheChecks

open Library

/-! ### The event loop -/

/-- `IN_CACHE_TRUST_SECONDS`. -/
def inCacheTrust : Time := 60 * 1000000

/-- Where the task of a check is, with the `cache_forgotten` it read; an answer is `none` when the cache
cannot tell. -/
inductive Progress
  | created
  | waiting (forgotten : ℕ)
  | sent (forgotten : ℕ)
  | finished (answer : Option Bool)
deriving DecidableEq

/-- A check: how often the findings had been forgotten when it was started and when its request was sent,
and when its response was recorded. -/
structure Check where
  key : String
  started : ℕ
  sentAfter : Option ℕ
  recordedAt : Option Time
  progress : Progress

/-- An entry of `found_in_cache`: when it was found, and by which check. -/
structure Finding where
  foundAt : Time
  check : ℕ

/-- Where a call of `_in_cache` is: it waits for a check, trusts a finding, was told by a check, or was
cancelled. -/
inductive Waiting
  | waits (check : ℕ)
  | trusts (found : Option Finding)
  | told (check : ℕ) (answer : Option Bool)
  | cancelled

/-- A call of `_in_cache`: how often the findings had been forgotten when it began, and when it began. -/
structure Call where
  key : String
  began : ℕ
  beganAt : Time
  state : Waiting

/-- The loop's clock, `found_in_cache`, `cache_checks`, `cache_forgotten`, the tasks and the calls. -/
structure Cache where
  now : Time
  found : String → Option Finding
  checks : String → Option ℕ
  forgotten : ℕ
  tasks : ℕ → Option Check
  calls : ℕ → Option Call

namespace Cache

/-- The tasks with one that changed. -/
def setTask (k : ℕ) (t : Check) (s : Cache) : Cache :=
  { s with tasks := Function.update s.tasks k (some t) }

/-- The calls with one that changed. -/
def setCall (id : ℕ) (c : Call) (s : Cache) : Cache :=
  { s with calls := Function.update s.calls id (some c) }

/-- The start of a call, to its answer or its await: it may start a check. -/
def inCache (id : ℕ) (key : String) (task : ℕ) (s : Cache) : Cache :=
  let call (state : Waiting) : Call := ⟨key, s.forgotten, s.now, state⟩
  if s.now - (s.found key).elim (-inCacheTrust) (·.foundAt) < inCacheTrust then
    s.setCall id (call (.trusts (s.found key)))
  else
    match s.checks key with
    | some k => s.setCall id (call (.waits k))
    | none =>
      ({ s with checks := Function.update s.checks key (some task) }.setTask task
        ⟨key, s.forgotten, none, none, .created⟩).setCall id (call (.waits task))

/-- `_forget_cache_findings`. -/
def forget (s : Cache) : Cache :=
  { s with found := fun _ ↦ none, checks := fun _ ↦ none, forgotten := s.forgotten + 1 }

/-- A finding is recorded. -/
def record (k : ℕ) (t : Check) (s : Cache) : Cache :=
  { s with found := Function.update s.found t.key (some ⟨s.now, k⟩) }.setTask k
    { t with recordedAt := some s.now, progress := .finished (some true) }

end Cache

/-- Time passing, a call, a step of the task of a check, its done callback, an answer to a call that waits
for it, the cancellation of a call, a forget, or a sweep. -/
inductive Event
  | tick (elapsed : ℕ)
  | call (id : ℕ) (key : String) (task : ℕ)
  | begin (task : ℕ)
  | send (task : ℕ)
  | respond (task : ℕ) (answer : Option Bool)
  | done (task : ℕ)
  | answer (id : ℕ)
  | cancel (id : ℕ)
  | forget
  | sweep

/-- One event, up to the next await. -/
def step (s : Cache) : Event → Option Cache
  | .tick elapsed => some { s with now := s.now + elapsed }
  | .call id key task =>
    if (s.calls id).isSome || (s.tasks task).isSome then none else some (s.inCache id key task)
  | .begin k =>
    match s.tasks k with
    | some t =>
      match t.progress with
      | .created => some (s.setTask k { t with progress := .waiting s.forgotten })
      | _ => none
    | none => none
  | .send k =>
    match s.tasks k with
    | some t =>
      match t.progress with
      | .waiting forgotten =>
        some (s.setTask k { t with sentAfter := some s.forgotten, progress := .sent forgotten })
      | _ => none
    | none => none
  | .respond k answer =>
    match s.tasks k with
    | some t =>
      match t.progress with
      | .sent forgotten =>
        some (if answer = some true ∧ s.forgotten = forgotten then s.record k t
          else s.setTask k { t with progress := .finished answer })
      | _ => none
    | none => none
  | .done k =>
    match s.tasks k with
    | some t =>
      match t.progress with
      | .finished _ =>
        some (if s.checks t.key = some k then
          { s with checks := Function.update s.checks t.key none } else s)
      | _ => none
    | none => none
  | .answer id =>
    match s.calls id with
    | some c =>
      match c.state with
      | .waits k =>
        match s.tasks k with
        | some t =>
          match t.progress with
          | .finished answer => some (s.setCall id { c with state := .told k answer })
          | _ => none
        | none => none
      | _ => none
    | none => none
  | .cancel id =>
    match s.calls id with
    | some c =>
      match c.state with
      | .waits _ => some (s.setCall id { c with state := .cancelled })
      | _ => none
    | none => none
  | .forget => some s.forget
  | .sweep => some { s with
      found := fun key ↦ (s.found key).filter fun f ↦ s.now - inCacheTrust < f.foundAt }

/-- The checks of a process whose loop's clock starts at some time. -/
def cacheChecks (start : ℕ) : Machine Cache Event where
  initial := ⟨start, fun _ ↦ none, fun _ ↦ none, 0, fun _ ↦ none, fun _ ↦ none⟩
  step := step

/-! ### The invariant -/

/-- The task of a check goes on. -/
structure Check.Later (t t' : Check) : Prop where
  key_eq : t'.key = t.key
  started_eq : t'.started = t.started
  sentAfter : ∀ n, t.sentAfter = some n → t'.sentAfter = some n
  recordedAt : ∀ a, t.recordedAt = some a → t'.recordedAt = some a
  finished : ∀ answer, t.progress = .finished answer → t'.progress = .finished answer

/-- What holds of every check: it read `cache_forgotten` after it was started, and sent its request after
that. -/
structure Check.Sound (forgotten : ℕ) (t : Check) : Prop where
  started_le : t.started ≤ forgotten
  created : t.progress = .created → t.sentAfter = none
  waiting : ∀ n, t.progress = .waiting n → t.sentAfter = none ∧ t.started ≤ n ∧ n ≤ forgotten
  sent : ∀ n, t.progress = .sent n → t.started ≤ n ∧
    ∃ m, t.sentAfter = some m ∧ n ≤ m ∧ m ≤ forgotten
  finished : ∀ answer, t.progress = .finished (some answer) →
    ∃ m, t.sentAfter = some m ∧ t.started ≤ m
  recorded : ∀ a, t.recordedAt = some a → t.progress = .finished (some true)

/-- What holds of every call: the check it waits for or was told by was started since the forgets before it,
and the finding it trusts is of a request sent since then and was recorded not long ago. -/
def Call.Sound (tasks : ℕ → Option Check) (c : Call) : Prop :=
  match c.state with
  | .waits k => ∃ t, tasks k = some t ∧ t.key = c.key ∧ t.started = c.began
  | .trusts found => ∃ f t m, found = some f ∧ tasks f.check = some t ∧ t.key = c.key ∧
      t.sentAfter = some m ∧ c.began ≤ m ∧ t.recordedAt = some f.foundAt ∧
      c.beganAt - f.foundAt < inCacheTrust
  | .told k answer => ∃ t, tasks k = some t ∧ t.key = c.key ∧ t.started = c.began ∧
      t.progress = .finished answer
  | .cancelled => True

/-- A check is under way until it finished. -/
def Check.underWay (t : Check) : Bool :=
  match t.progress with
  | .finished _ => false
  | _ => true

/-- The invariant: `cache_checks` has the checks under way that were started since the last forget, and
`found_in_cache` what was found by requests sent since then. -/
structure Cache.Sound (s : Cache) : Prop where
  now_nonneg : 0 ≤ s.now
  tasks : ∀ k t, s.tasks k = some t → t.Sound s.forgotten
  started : ∀ key k, s.checks key = some k →
    ∃ t, s.tasks k = some t ∧ t.key = key ∧ t.started = s.forgotten
  listed : ∀ k t, s.tasks k = some t → t.started = s.forgotten → t.underWay →
    s.checks t.key = some k
  found : ∀ key f, s.found key = some f → ∃ t, s.tasks f.check = some t ∧ t.key = key ∧
    t.sentAfter = some s.forgotten ∧ t.recordedAt = some f.foundAt
  calls : ∀ id c, s.calls id = some c → c.Sound s.tasks

/-! ### Tasks go on -/

section Tasks

variable {tasks tasks' : ℕ → Option Check} {k : ℕ} {t t' : Check} {forgotten : ℕ}

theorem Check.Later.refl (t : Check) : t.Later t :=
  ⟨rfl, rfl, fun _ h ↦ h, fun _ h ↦ h, fun _ h ↦ h⟩

/-- What holds of a check survives a forget. -/
theorem Check.Sound.mono {forgotten' : ℕ} (hle : forgotten ≤ forgotten')
    (ht : t.Sound forgotten) : t.Sound forgotten' where
  started_le := ht.started_le.trans hle
  created := ht.created
  waiting n hn := by
    obtain ⟨hsent, hstarted, hread⟩ := ht.waiting n hn
    exact ⟨hsent, hstarted, hread.trans hle⟩
  sent n hn := by
    obtain ⟨hstarted, m, hm, hnm, hmf⟩ := ht.sent n hn
    exact ⟨hstarted, m, hm, hnm, hmf.trans hle⟩
  finished := ht.finished
  recorded := ht.recorded

/-- A check under way has nothing recorded, so it may go on to any state that keeps what it sent. -/
theorem Check.Sound.later (ht : t.Sound forgotten) (hway : t.underWay) (hkey : t'.key = t.key)
    (hstarted : t'.started = t.started)
    (hsent : ∀ n, t.sentAfter = some n → t'.sentAfter = some n) : t.Later t' := by
  refine ⟨hkey, hstarted, hsent, fun a ha ↦ ?_, fun answer hfinished ↦ ?_⟩
  · rw [Check.underWay, ht.recorded a ha] at hway
    cases hway
  · rw [Check.underWay, hfinished] at hway
    cases hway

/-- What holds of a call survives the tasks going on. -/
theorem Call.Sound.grows {c : Call} (hc : c.Sound tasks) (hgrows : Grows Check.Later tasks tasks') :
    c.Sound tasks' := by
  unfold Call.Sound at hc ⊢
  split
  · rename_i k hstate
    simp only [hstate] at hc
    obtain ⟨t, ht, hkey, hstarted⟩ := hc
    obtain ⟨t', ht', hlater⟩ := hgrows k t ht
    exact ⟨t', ht', hlater.key_eq.trans hkey, hlater.started_eq.trans hstarted⟩
  · rename_i found hstate
    simp only [hstate] at hc
    obtain ⟨f, t, m, hf, ht, hkey, hm, hle, hrecorded, hage⟩ := hc
    obtain ⟨t', ht', hlater⟩ := hgrows _ t ht
    exact ⟨f, t', m, hf, ht', hlater.key_eq.trans hkey, hlater.sentAfter m hm, hle,
      hlater.recordedAt _ hrecorded, hage⟩
  · rename_i k answer hstate
    simp only [hstate] at hc
    obtain ⟨t, ht, hkey, hstarted, hfinished⟩ := hc
    obtain ⟨t', ht', hlater⟩ := hgrows k t ht
    exact ⟨t', ht', hlater.key_eq.trans hkey, hlater.started_eq.trans hstarted,
      hlater.finished answer hfinished⟩
  · trivial

end Tasks

/-! ### What the operations keep -/

namespace Cache

variable {s : Cache} {k id : ℕ} {t t' : Check} {c : Call}

/-- Time passing keeps the invariant. -/
theorem Sound.tick (hs : s.Sound) (elapsed : ℕ) :
    Sound { s with now := s.now + elapsed } :=
  ⟨add_nonneg hs.now_nonneg (Int.natCast_nonneg elapsed), hs.tasks, hs.started, hs.listed,
    hs.found, hs.calls⟩

/-- A call that is sound may replace another. -/
theorem Sound.setCall (hs : s.Sound) (hc : c.Sound s.tasks) : (s.setCall id c).Sound := by
  refine ⟨hs.now_nonneg, hs.tasks, hs.started, hs.listed, hs.found, fun j d hd ↦ ?_⟩
  rcases update_eq_some_iff.mp hd with ⟨-, rfl⟩ | ⟨-, hd⟩
  · exact hc
  · exact hs.calls j d hd

/-- The findings may be others from checks that sent their request since the last forget. -/
theorem Sound.setFound (hs : s.Sound) {found : String → Option Finding}
    (hfound : ∀ key f, found key = some f → ∃ t, s.tasks f.check = some t ∧ t.key = key ∧
      t.sentAfter = some s.forgotten ∧ t.recordedAt = some f.foundAt) :
    Sound { s with found := found } :=
  ⟨hs.now_nonneg, hs.tasks, hs.started, hs.listed, hfound, hs.calls⟩

/-- A check may go on. -/
theorem Sound.setTask (hs : s.Sound) (ht : s.tasks k = some t) (hlater : t.Later t')
    (hsound : t'.Sound s.forgotten) (hway : t'.underWay → t.underWay) :
    (s.setTask k t').Sound := by
  have hgrows : Grows Check.Later s.tasks (s.setTask k t').tasks := grows_update .refl ht hlater
  refine ⟨hs.now_nonneg, fun j u hu ↦ ?_, fun key j hj ↦ ?_, fun j u hu hstarted hunder ↦ ?_,
    fun key f hf ↦ ?_, fun id c hc ↦ (hs.calls id c hc).grows hgrows⟩
  · rcases update_eq_some_iff.mp hu with ⟨rfl, rfl⟩ | ⟨-, hu⟩
    · exact hsound
    · exact hs.tasks j u hu
  · obtain ⟨u, hu, hkey, hstarted⟩ := hs.started key j hj
    obtain ⟨u', hu', hlater'⟩ := hgrows j u hu
    exact ⟨u', hu', hlater'.key_eq.trans hkey, hlater'.started_eq.trans hstarted⟩
  · rcases update_eq_some_iff.mp hu with ⟨rfl, rfl⟩ | ⟨-, hu⟩
    · have hlisted := hs.listed j t ht (hlater.started_eq ▸ hstarted) (hway hunder)
      rwa [hlater.key_eq]
    · exact hs.listed j u hu hstarted hunder
  · obtain ⟨u, hu, hkey, hsent, hrecorded⟩ := hs.found key f hf
    obtain ⟨u', hu', hlater'⟩ := hgrows _ u hu
    exact ⟨u', hu', hlater'.key_eq.trans hkey, hlater'.sentAfter _ hsent,
      hlater'.recordedAt _ hrecorded⟩

/-- A check is started for a key that has none. -/
theorem Sound.start (hs : s.Sound) {key : String} (hnone : s.checks key = none)
    (hnew : s.tasks k = none) :
    ({ s with checks := Function.update s.checks key (some k) }.setTask k
      ⟨key, s.forgotten, none, none, .created⟩).Sound := by
  have hgrows : Grows Check.Later s.tasks (Function.update s.tasks k
      (some ⟨key, s.forgotten, none, none, .created⟩)) := grows_create .refl hnew
  refine ⟨hs.now_nonneg, fun j u hu ↦ ?_, fun key' j hj ↦ ?_, fun j u hu hstarted hunder ↦ ?_,
    fun key' f hf ↦ ?_, fun id c hc ↦ (hs.calls id c hc).grows hgrows⟩
  · rcases update_eq_some_iff.mp hu with ⟨-, rfl⟩ | ⟨-, hu⟩
    · exact ⟨le_rfl, fun _ ↦ rfl, nofun, nofun, nofun, nofun⟩
    · exact hs.tasks j u hu
  · rcases update_eq_some_iff.mp hj with ⟨rfl, rfl⟩ | ⟨-, hj⟩
    · exact ⟨_, Function.update_self .., rfl, rfl⟩
    · obtain ⟨u, hu, hukey, hustarted⟩ := hs.started key' j hj
      obtain ⟨u', hu', hlater⟩ := hgrows j u hu
      exact ⟨u', hu', hlater.key_eq.trans hukey, hlater.started_eq.trans hustarted⟩
  · rcases update_eq_some_iff.mp hu with ⟨rfl, rfl⟩ | ⟨-, hu⟩
    · exact Function.update_self ..
    · have hlisted := hs.listed j u hu hstarted hunder
      have hkey : u.key ≠ key := by
        intro h
        rw [h, hnone] at hlisted
        cases hlisted
      exact (Function.update_of_ne hkey ..).trans hlisted
  · obtain ⟨u, hu, hukey, hsent, hrecorded⟩ := hs.found key' f hf
    obtain ⟨u', hu', hlater⟩ := hgrows _ u hu
    exact ⟨u', hu', hlater.key_eq.trans hukey, hlater.sentAfter _ hsent,
      hlater.recordedAt _ hrecorded⟩

/-- A finished check is dropped from those listed. -/
theorem Sound.unlist (hs : s.Sound) (ht : s.tasks k = some t) (hover : t.underWay = false)
    (hlisted : s.checks t.key = some k) :
    Sound { s with checks := Function.update s.checks t.key none } := by
  refine ⟨hs.now_nonneg, hs.tasks, fun key j hj ↦ ?_, fun j u hu hstarted hunder ↦ ?_, hs.found,
    hs.calls⟩
  · exact hs.started key j (update_none_eq_some_iff.mp hj).2
  · have hu' := hs.listed j u hu hstarted hunder
    have hkey : u.key ≠ t.key := by
      intro h
      rw [h, hlisted, Option.some.injEq] at hu'
      subst hu'
      obtain rfl := Option.some.inj (ht.symm.trans hu)
      rw [hover] at hunder
      cases hunder
    exact (Function.update_of_ne hkey ..).trans hu'

/-- A forget keeps the invariant: no check under way was started since. -/
theorem Sound.forget (hs : s.Sound) : s.forget.Sound := by
  refine ⟨hs.now_nonneg, fun k t ht ↦ (hs.tasks k t ht).mono (Nat.le_succ _), nofun,
    fun k t ht hstarted _ ↦ ?_, nofun, hs.calls⟩
  have hle := (hs.tasks k t ht).started_le
  simp only [Cache.forget] at hstarted
  omega

/-- A finding that is trusted is there: the clock is not negative. -/
theorem Sound.trusted (hs : s.Sound) {key : String}
    (htrust : s.now - (s.found key).elim (-inCacheTrust) (·.foundAt) < inCacheTrust) :
    ∃ f t, s.found key = some f ∧ s.tasks f.check = some t ∧ t.key = key ∧
      t.sentAfter = some s.forgotten ∧ t.recordedAt = some f.foundAt ∧
      s.now - f.foundAt < inCacheTrust := by
  cases hfound : s.found key with
  | none =>
    rw [hfound, Option.elim_none, sub_neg_eq_add] at htrust
    exact absurd htrust (not_lt.mpr (le_add_of_nonneg_left hs.now_nonneg))
  | some f =>
    rw [hfound, Option.elim_some] at htrust
    obtain ⟨t, ht, hkey, hsent, hrecorded⟩ := hs.found key f hfound
    exact ⟨f, t, rfl, ht, hkey, hsent, hrecorded, htrust⟩

/-- A call keeps the invariant. -/
theorem Sound.inCache (hs : s.Sound) {key : String} {task : ℕ} (hnew : s.tasks task = none) :
    (s.inCache id key task).Sound := by
  unfold Cache.inCache
  split_ifs with htrust
  · obtain ⟨f, t, hfound, ht, hkey, hsent, hrecorded, hage⟩ := hs.trusted htrust
    exact hs.setCall ⟨f, t, s.forgotten, hfound, ht, hkey, hsent, le_rfl, hrecorded, hage⟩
  · split
    · rename_i k hk
      exact hs.setCall (hs.started key k hk)
    · rename_i hnone
      apply (hs.start hnone hnew).setCall
      exact ⟨_, Function.update_self .., rfl, rfl⟩

/-- A check begins by reading `cache_forgotten`. -/
theorem Sound.begin (hs : s.Sound) (ht : s.tasks k = some t) (hprogress : t.progress = .created) :
    (s.setTask k { t with progress := .waiting s.forgotten }).Sound := by
  have hsound := hs.tasks k t ht
  have hway : t.underWay := by rw [Check.underWay, hprogress]
  have hlater : t.Later { t with progress := .waiting s.forgotten } :=
    hsound.later hway rfl rfl fun _ h ↦ h
  refine hs.setTask ht hlater ⟨hsound.started_le, nofun, fun n hn ↦ ?_, nofun, nofun, fun a h ↦ ?_⟩
    fun _ ↦ hway
  · cases hn
    exact ⟨hsound.created hprogress, hsound.started_le, le_rfl⟩
  · have hfinished := hsound.recorded a h
    rw [hprogress] at hfinished
    cases hfinished

/-- A check sends its request when the semaphore lets it. -/
theorem Sound.send (hs : s.Sound) (ht : s.tasks k = some t) {forgotten : ℕ}
    (hprogress : t.progress = .waiting forgotten) :
    (s.setTask k { t with sentAfter := some s.forgotten, progress := .sent forgotten }).Sound := by
  have hsound := hs.tasks k t ht
  obtain ⟨hunsent, hstarted, hread⟩ := hsound.waiting forgotten hprogress
  have hway : t.underWay := by rw [Check.underWay, hprogress]
  have hlater : t.Later { t with sentAfter := some s.forgotten, progress := .sent forgotten } := by
    refine hsound.later hway rfl rfl fun n hn ↦ ?_
    rw [hunsent] at hn
    cases hn
  refine hs.setTask ht hlater ⟨hsound.started_le, nofun, nofun, fun n hn ↦ ?_, nofun, fun a h ↦ ?_⟩
    fun _ ↦ hway
  · cases hn
    exact ⟨hstarted, s.forgotten, rfl, hread, le_rfl⟩
  · have hfinished := hsound.recorded a h
    rw [hprogress] at hfinished
    cases hfinished

/-- A check that sent its request may finish, recorded or not. -/
theorem Sound.finish (hs : s.Sound) (ht : s.tasks k = some t) {forgotten : ℕ}
    (hprogress : t.progress = .sent forgotten) {answer : Option Bool} {recordedAt : Option Time}
    (hrecorded : ∀ a, recordedAt = some a → answer = some true) :
    (s.setTask k { t with recordedAt := recordedAt, progress := .finished answer }).Sound := by
  have hsound := hs.tasks k t ht
  obtain ⟨hstarted, m, hsent, hread, -⟩ := hsound.sent forgotten hprogress
  apply hs.setTask ht
  · exact hsound.later (by rw [Check.underWay, hprogress]) rfl rfl fun _ h ↦ h
  · refine ⟨hsound.started_le, nofun, nofun, nofun, fun _ _ ↦ ⟨m, hsent, hstarted.trans hread⟩,
      fun a h ↦ ?_⟩
    rw [hrecorded a h]
  · exact nofun

/-- A finding is recorded when no forget came since the check read `cache_forgotten`, so none since its
request was sent. -/
theorem Sound.record (hs : s.Sound) (ht : s.tasks k = some t)
    (hprogress : t.progress = .sent s.forgotten) : (s.record k t).Sound := by
  obtain ⟨-, m, hsent, hread, hle⟩ := (hs.tasks k t ht).sent _ hprogress
  have hm : t.sentAfter = some s.forgotten := by rw [hsent, le_antisymm hle hread]
  have hfinish := hs.finish ht hprogress fun a (_ : some s.now = some a) ↦ rfl
  apply hfinish.setFound
  intro key f hf
  rcases update_eq_some_iff.mp hf with ⟨rfl, rfl⟩ | ⟨-, hf⟩
  · exact ⟨_, Function.update_self .., rfl, hm, rfl⟩
  · exact hfinish.found key f hf

/-- The sweep drops findings only. -/
theorem Sound.sweep (hs : s.Sound) : Sound { s with
    found := fun key ↦ (s.found key).filter fun f ↦ s.now - inCacheTrust < f.foundAt } := by
  apply hs.setFound
  intro key f hf
  exact hs.found key f (Option.filter_eq_some_iff.mp hf).1

/-- A call is told what its check found. -/
theorem Sound.answer (hs : s.Sound) (hc : s.calls id = some c) (hstate : c.state = .waits k)
    (ht : s.tasks k = some t) {answer : Option Bool} (hprogress : t.progress = .finished answer) :
    (s.setCall id { c with state := .told k answer }).Sound := by
  apply hs.setCall
  have hcall := hs.calls id c hc
  simp only [Call.Sound, hstate] at hcall
  obtain ⟨t', ht', hkey, hstarted⟩ := hcall
  obtain rfl := Option.some.inj (ht.symm.trans ht')
  exact ⟨t, ht, hkey, hstarted, hprogress⟩

/-- Every event keeps the invariant. -/
theorem Sound.step (hs : s.Sound) {e : Event} {s' : Cache} (hstep : step s e = some s') :
    s'.Sound := by
  cases e with
  | tick elapsed =>
    obtain rfl := Option.some.inj hstep
    exact hs.tick elapsed
  | call id key task =>
    simp only [CacheChecks.step] at hstep
    split_ifs at hstep with hnew
    obtain rfl := Option.some.inj hstep
    simp only [Bool.or_eq_true, not_or, Bool.not_eq_true, Option.isSome_eq_false_iff,
      Option.isNone_iff_eq_none] at hnew
    exact hs.inCache hnew.2
  | begin k =>
    simp only [CacheChecks.step] at hstep
    split at hstep
    · rename_i t ht
      split at hstep
      · rename_i hprogress
        obtain rfl := Option.some.inj hstep
        exact hs.begin ht hprogress
      · cases hstep
    · cases hstep
  | send k =>
    simp only [CacheChecks.step] at hstep
    split at hstep
    · rename_i t ht
      split at hstep
      · rename_i forgotten hprogress
        obtain rfl := Option.some.inj hstep
        exact hs.send ht hprogress
      · cases hstep
    · cases hstep
  | respond k answer =>
    simp only [CacheChecks.step] at hstep
    split at hstep
    · rename_i t ht
      split at hstep
      · rename_i forgotten hprogress
        obtain rfl := Option.some.inj hstep
        split_ifs with hrecord
        · exact hs.record ht (hrecord.2 ▸ hprogress)
        · refine hs.finish ht hprogress fun a ha ↦ ?_
          have hfinished := (hs.tasks k t ht).recorded a ha
          rw [hprogress] at hfinished
          cases hfinished
      · cases hstep
    · cases hstep
  | done k =>
    simp only [CacheChecks.step] at hstep
    split at hstep
    · rename_i t ht
      split at hstep
      · rename_i answer hprogress
        obtain rfl := Option.some.inj hstep
        split_ifs with hlisted
        · exact hs.unlist ht (by rw [Check.underWay, hprogress]) hlisted
        · exact hs
      · cases hstep
    · cases hstep
  | answer id =>
    simp only [CacheChecks.step] at hstep
    split at hstep
    · rename_i c hc
      split at hstep
      · rename_i k hstate
        split at hstep
        · rename_i t ht
          split at hstep
          · rename_i answer hprogress
            obtain rfl := Option.some.inj hstep
            exact hs.answer hc hstate ht hprogress
          · cases hstep
        · cases hstep
      · cases hstep
    · cases hstep
  | cancel id =>
    simp only [CacheChecks.step] at hstep
    split at hstep
    · rename_i c hc
      split at hstep
      · obtain rfl := Option.some.inj hstep
        exact hs.setCall trivial
      · cases hstep
    · cases hstep
  | forget =>
    obtain rfl := Option.some.inj hstep
    exact hs.forget
  | sweep =>
    obtain rfl := Option.some.inj hstep
    exact hs.sweep

end Cache

/-- In every reachable state the invariant holds. -/
theorem sound {start : ℕ} {s : Cache} (hs : (cacheChecks start).Reachable s) : s.Sound := by
  refine hs.invariant ⟨Int.natCast_nonneg start, nofun, nofun, nofun, nofun, nofun⟩
    fun _ _ _ _ hsound hstep ↦ hsound.step hstep

/-! ### What the invariant says -/

section Reachable

variable {start : ℕ} {s : Cache}

/-- The call has answered that the cache holds the entry, on the strength of check `k`. -/
def Call.AnsweredTrue (c : Call) (k : ℕ) : Prop :=
  (∃ f, c.state = .trusts (some f) ∧ f.check = k) ∨ c.state = .told k (some true)

/-- An answer that an entry is there is by a request for it that was sent after every forget before the call
began. -/
theorem sent_after_forgets (hs : (cacheChecks start).Reachable s) {id k : ℕ} {c : Call}
    (hc : s.calls id = some c) (hanswer : c.AnsweredTrue k) :
    ∃ t m, s.tasks k = some t ∧ t.key = c.key ∧ t.sentAfter = some m ∧ c.began ≤ m := by
  have hcall := (sound hs).calls id c hc
  rcases hanswer with ⟨f, hstate, rfl⟩ | hstate
  · simp only [Call.Sound, hstate] at hcall
    obtain ⟨f', t, m, hf, ht, hkey, hm, hle, -⟩ := hcall
    obtain rfl := Option.some.inj hf
    exact ⟨t, m, ht, hkey, hm, hle⟩
  · simp only [Call.Sound, hstate] at hcall
    obtain ⟨t, ht, hkey, hstarted, hprogress⟩ := hcall
    obtain ⟨m, hm, hle⟩ := ((sound hs).tasks k t ht).finished true hprogress
    exact ⟨t, m, ht, hkey, hm, hstarted ▸ hle⟩

/-- A call that trusts a finding starts no check, and the finding was recorded not long ago. -/
theorem trusted_since (hs : (cacheChecks start).Reachable s) {id task : ℕ} {key : String}
    {s' : Cache} (hstep : step s (.call id key task) = some s') {c : Call}
    (hc : s'.calls id = some c) {found : Option Finding} (hstate : c.state = .trusts found) :
    s'.tasks = s.tasks ∧ ∃ f t, s.found key = some f ∧ s.tasks f.check = some t ∧ t.key = key ∧
      t.recordedAt = some f.foundAt ∧ s.now - f.foundAt < inCacheTrust := by
  have hsound := sound hs
  simp only [step] at hstep
  split_ifs at hstep with hnew
  obtain rfl := Option.some.inj hstep
  unfold Cache.inCache at hc ⊢
  split_ifs at hc ⊢ with htrust
  · obtain ⟨f, t, hfound, ht, hkey, -, hrecorded, hage⟩ := hsound.trusted htrust
    exact ⟨rfl, f, t, hfound, ht, hkey, hrecorded, hage⟩
  · exfalso
    split at hc
    all_goals
      rcases update_eq_some_iff.mp hc with ⟨-, rfl⟩ | ⟨hne, -⟩
      · cases hstate
      · exact hne rfl

/-- At most one check of a key that was started since the last forget is under way. -/
theorem underWay_unique (hs : (cacheChecks start).Reachable s) {j k : ℕ} {t u : Check}
    (ht : s.tasks j = some t) (hu : s.tasks k = some u) (hkey : t.key = u.key)
    (htstarted : t.started = s.forgotten) (hustarted : u.started = s.forgotten)
    (htway : t.underWay) (huway : u.underWay) : j = k := by
  have hj := (sound hs).listed j t ht htstarted htway
  have hk := (sound hs).listed k u hu hustarted huway
  rw [hkey] at hj
  exact Option.some.inj (hj.symm.trans hk)

/-- An answer that an entry is there is by a request sent after every forget before the call. A call that
trusts a finding starts no check, and the finding was recorded not long ago; one that was is trusted. At most
one check of a key that was started since the last forget is under way. -/
theorem cache_checks_coherent (hs : (cacheChecks start).Reachable s) :
    (∀ id c k, s.calls id = some c → c.AnsweredTrue k →
      ∃ t m, s.tasks k = some t ∧ t.key = c.key ∧ t.sentAfter = some m ∧ c.began ≤ m) ∧
    (∀ id key task s', step s (.call id key task) = some s' →
      (∀ c found, s'.calls id = some c → c.state = .trusts found → s'.tasks = s.tasks ∧
        ∃ f t, s.found key = some f ∧ s.tasks f.check = some t ∧ t.key = key ∧
          t.recordedAt = some f.foundAt ∧ s.now - f.foundAt < inCacheTrust) ∧
      ∀ f, s.found key = some f → s.now - f.foundAt < inCacheTrust →
        s'.calls id = some ⟨key, s.forgotten, s.now, .trusts (some f)⟩) ∧
    (∀ j k t u, s.tasks j = some t → s.tasks k = some u → t.key = u.key →
      t.started = s.forgotten → u.started = s.forgotten → t.underWay → u.underWay → j = k) := by
  refine ⟨fun id c k hc hanswer ↦ sent_after_forgets hs hc hanswer,
    fun id key task s' hstep ↦ ⟨fun c found hc hstate ↦ trusted_since hs hstep hc hstate,
      fun f hf hage ↦ ?_⟩,
    fun j k t u ht hu hkey htstarted hustarted htway huway ↦
      underWay_unique hs ht hu hkey htstarted hustarted htway huway⟩
  simp only [step] at hstep
  split_ifs at hstep
  obtain rfl := Option.some.inj hstep
  rw [Cache.inCache, if_pos (by rwa [hf]), hf]
  exact Function.update_self ..

end Reachable

/-- A check whose response comes after a forget and after the next check was started: its finding is not
recorded, and the check that was started is left listed. -/
def sampleChecks : List Event :=
  [.call 0 "key" 0, .begin 0, .send 0, .forget, .call 1 "key" 1, .begin 1, .send 1,
    .respond 0 (some true), .done 0, .answer 0, .respond 1 (some true), .done 1, .answer 1,
    .tick 5, .call 2 "key" 2]

theorem sampleChecks_isSome :
    ((cacheChecks 0).run (cacheChecks 0).initial sampleChecks).isSome := by
  decide

theorem cache_checks_coherent_sampleChecks : ∃ t m,
    (((cacheChecks 0).run (cacheChecks 0).initial sampleChecks).get sampleChecks_isSome).tasks 1 =
      some t ∧ t.key = "key" ∧ t.sentAfter = some m ∧ 1 ≤ m :=
  (cache_checks_coherent (Machine.reachable_of_run sampleChecks_isSome)).1 2
    ⟨"key", 1, 5, .trusts (some ⟨0, 1⟩)⟩ 1 rfl (Or.inl ⟨⟨0, 1⟩, rfl, rfl⟩)

end Holbuild.RemoteExec.CacheChecks
