import Holbuild.Library.Machine
import Holbuild.Library.Pools
import Mathlib.Data.Nat.Basic

/-!
# The circuit breaker of the remote cache

`remote_cache.sml`. After three requests in a row that got no response the remote cache is disabled for a
cool-down; then one request, the probe, is let through, and only its response enables the cache again.
Requests of any number of threads overlap: `begin_request` and `record_transport_outcome` hold the mutex,
so each is one step, and a request that is in flight ends in a response, in a failure or by an exception.

`Requests.Sound` is what holds in every reachable state: the requests of the current generation are the
probe alone while the breaker is tripped, and ordinary ones otherwise. A trip begins a new generation, so
nothing that is in flight then can change the breaker (`run_of_trips`). `breaker_safe` is the result.
-/

set_option autoImplicit false
set_option relaxedAutoImplicit false

namespace Holbuild.Cache

open Library

/-! ### The breaker -/

/-- How a request ends that does not raise. -/
inductive HttpResult
  | response (code : ℤ)
  | failed (message : String)
deriving DecidableEq

/-- The references that the mutex guards. Times are in microseconds. -/
structure Breaker where
  transportFailures : ℕ
  retryAfter : ℕ
  probeInFlight : Bool
  transportGeneration : ℕ
deriving DecidableEq

/-- What `begin_request` answers for an admitted request. -/
structure Admission where
  generation : ℕ
  probe : Bool
deriving DecidableEq

def maxConsecutiveTransportFailures : ℕ := 3

def transportCooldown : ℕ := 60 * 1000000

namespace Breaker

def tripped (b : Breaker) : Bool := maxConsecutiveTransportFailures ≤ b.transportFailures

/-- `disabled_unlocked`. -/
def disabled (now : ℕ) (b : Breaker) : Bool :=
  b.tripped && (b.probeInFlight || decide (now < b.retryAfter))

def beginRequest (now : ℕ) (b : Breaker) : Option Admission × Breaker :=
  if b.disabled now then (none, b)
  else (some ⟨b.transportGeneration, b.tripped⟩, { b with probeInFlight := b.tripped || b.probeInFlight })

/-- The failures in a row after an outcome of a request of the current generation. -/
def failuresAfter (probe : Bool) (result : HttpResult) (failures : ℕ) : ℕ :=
  match result with
  | .failed _ => if probe then failures else failures + 1
  | .response _ => 0

/-- What is printed about an outcome. -/
def outcomeMessage (probe tripped recovered : Bool) (result : HttpResult) : List String :=
  match tripped, recovered, result with
  | true, _, .failed message =>
    ["holbuild: warning: remote cache disabled for 60 seconds after " ++
      (if probe then "a recovery probe failed"
        else toString maxConsecutiveTransportFailures ++ " requests in a row failed") ++
      "; the last: " ++ message ++ "\n"]
  | _, true, _ => ["holbuild: remote cache available again\n"]
  | _, _, _ => []

/-- `record_transport_outcome`: the breaker it leaves and what it prints. -/
def recordTransportOutcome (now : ℕ) (admission : Admission) (result : HttpResult) (b : Breaker) :
    Breaker × List String :=
  let current := decide (admission.generation = b.transportGeneration)
  let failures :=
    if current then failuresAfter admission.probe result b.transportFailures else b.transportFailures
  let tripped := current && decide (maxConsecutiveTransportFailures ≤ failures)
  let recovered := current && admission.probe && !tripped
  (⟨failures, if tripped then now + transportCooldown else b.retryAfter,
      if current then false else b.probeInFlight,
      if tripped then b.transportGeneration + 1 else b.transportGeneration⟩,
    outcomeMessage admission.probe tripped recovered result)

end Breaker

/-! ### Requests of any threads -/

/-- The time, the breaker, what was printed, and the admission of each thread's request in flight. -/
structure Requests where
  now : ℕ
  breaker : Breaker
  printed : List String
  inFlight : ℕ → Option Admission

/-- Time passes, a thread begins a request, or a request ends, perhaps by an exception. -/
inductive RequestEvent
  | elapse (time : ℕ)
  | start (thread : ℕ)
  | finish (thread : ℕ) (ending : Except String HttpResult)

/-- What `send` records at the end of a request: an exception counts as a failure of a probe, and for
nothing otherwise. -/
def recorded (probe : Bool) : Except String HttpResult → Option HttpResult
  | .ok result => some result
  | .error message => if probe then some (.failed message) else none

/-- The end of `send`. -/
def sent (now : ℕ) (admission : Admission) (ending : Except String HttpResult) (b : Breaker) :
    Breaker × List String :=
  match recorded admission.probe ending with
  | some result => b.recordTransportOutcome now admission result
  | none => (b, [])

namespace Requests

/-- One event. A refused request leaves everything as it is. -/
def step (s : Requests) : RequestEvent → Option Requests
  | .elapse time => some { s with now := s.now + time }
  | .start thread =>
    if (s.inFlight thread).isSome then none
    else
      match s.breaker.beginRequest s.now with
      | (none, _) => some s
      | (some admission, breaker) => some { s with
          breaker := breaker
          inFlight := Function.update s.inFlight thread (some admission) }
  | .finish thread ending =>
    (s.inFlight thread).map fun admission ↦ { s with
      breaker := (sent s.now admission ending s.breaker).1
      printed := s.printed ++ (sent s.now admission ending s.breaker).2
      inFlight := Function.update s.inFlight thread none }

/-- The process starts with the breaker untripped. -/
def machine : Machine Requests RequestEvent where
  initial := ⟨0, ⟨0, 0, false, 0⟩, [], fun _ ↦ none⟩
  step := step

/-- The requests a thread may begin are admitted. -/
def admits (s : Requests) : Prop := (s.breaker.beginRequest s.now).1 ≠ none

/-- The outcomes that are recorded of requests of the current generation: whether they are failures. -/
def outcome (s : Requests) : RequestEvent → List Bool
  | .finish thread ending =>
    match s.inFlight thread with
    | some admission =>
      if admission.generation = s.breaker.transportGeneration then
        match recorded admission.probe ending with
        | some (.failed _) => [true]
        | some (.response _) => [false]
        | none => []
      else []
    | none => []
  | _ => []

/-- A step by which the breaker is tripped, or tripped again. -/
def Trips (s : Requests) (event : RequestEvent) (s' : Requests) : Prop :=
  s.step event = some s' ∧ s.breaker.transportGeneration < s'.breaker.transportGeneration

end Requests

/-- How many failures there were in a row, up to now. -/
def failuresInARow (outcomes : List Bool) : ℕ := (outcomes.reverse.takeWhile id).length

@[simp] theorem failuresInARow_append_false (outcomes : List Bool) :
    failuresInARow (outcomes ++ [false]) = 0 := by
  simp [failuresInARow]

@[simp] theorem failuresInARow_append_true (outcomes : List Bool) :
    failuresInARow (outcomes ++ [true]) = failuresInARow outcomes + 1 := by
  simp [failuresInARow]

/-! ### What each operation does -/

section Operations

variable {b : Breaker} {now : ℕ} {admission : Admission} {ending : Except String HttpResult}
  {result : HttpResult}

theorem Breaker.tripped_iff : b.tripped = true ↔ maxConsecutiveTransportFailures ≤ b.transportFailures :=
  decide_eq_true_iff

theorem Breaker.beginRequest_disabled (h : b.disabled now = true) : b.beginRequest now = (none, b) := by
  rw [Breaker.beginRequest, if_pos h]

theorem Breaker.beginRequest_enabled (h : b.disabled now = false) : b.beginRequest now =
    (some ⟨b.transportGeneration, b.tripped⟩,
      { b with probeInFlight := b.tripped || b.probeInFlight }) := by
  rw [Breaker.beginRequest, if_neg (by rw [h]; exact Bool.false_ne_true)]

/-- The end of a request of an earlier generation changes nothing and prints nothing. -/
theorem sent_stale (h : admission.generation ≠ b.transportGeneration) :
    sent now admission ending b = (b, []) := by
  rw [sent]
  split
  · next result _ => cases result <;> simp [Breaker.recordTransportOutcome, Breaker.outcomeMessage, h]
  · rfl

/-- An outcome of the current generation that leaves the breaker tripped begins a cool-down and a new
generation. -/
theorem Breaker.record_tripped (h : admission.generation = b.transportGeneration)
    (hmax : maxConsecutiveTransportFailures ≤ failuresAfter admission.probe result b.transportFailures) :
    (b.recordTransportOutcome now admission result).1 =
      ⟨failuresAfter admission.probe result b.transportFailures, now + transportCooldown, false,
        b.transportGeneration + 1⟩ := by
  simp [Breaker.recordTransportOutcome, h, hmax]

theorem Breaker.record_untripped (h : admission.generation = b.transportGeneration)
    (hmax : ¬ maxConsecutiveTransportFailures ≤ failuresAfter admission.probe result b.transportFailures) :
    (b.recordTransportOutcome now admission result).1 =
      ⟨failuresAfter admission.probe result b.transportFailures, b.retryAfter, false,
        b.transportGeneration⟩ := by
  simp [Breaker.recordTransportOutcome, h, hmax]

/-- The end of a request: it changes nothing if it is not recorded or of an earlier generation, and else
it leaves the breaker tripped anew or untripped. -/
theorem sent_cases :
    (admission.generation ≠ b.transportGeneration ∨ recorded admission.probe ending = none) ∧
        sent now admission ending b = (b, []) ∨
      ∃ result, admission.generation = b.transportGeneration ∧
        recorded admission.probe ending = some result ∧
        (maxConsecutiveTransportFailures ≤
              Breaker.failuresAfter admission.probe result b.transportFailures ∧
            (sent now admission ending b).1 =
              ⟨Breaker.failuresAfter admission.probe result b.transportFailures, now + transportCooldown,
                false, b.transportGeneration + 1⟩ ∨
          ¬ maxConsecutiveTransportFailures ≤
              Breaker.failuresAfter admission.probe result b.transportFailures ∧
            (sent now admission ending b).1 =
              ⟨Breaker.failuresAfter admission.probe result b.transportFailures, b.retryAfter, false,
                b.transportGeneration⟩) := by
  by_cases hcurrent : admission.generation = b.transportGeneration
  · cases hrecorded : recorded admission.probe ending with
    | none =>
      refine .inl ⟨.inr rfl, ?_⟩
      rw [sent, hrecorded]
    | some result =>
      refine .inr ⟨result, hcurrent, rfl, ?_⟩
      rw [sent, hrecorded]
      by_cases hmax : maxConsecutiveTransportFailures ≤
          Breaker.failuresAfter admission.probe result b.transportFailures
      · exact .inl ⟨hmax, Breaker.record_tripped hcurrent hmax⟩
      · exact .inr ⟨hmax, Breaker.record_untripped hcurrent hmax⟩
  · exact .inl ⟨.inl hcurrent, sent_stale hcurrent⟩

end Operations

namespace Requests

variable {s s' s₁ s₂ t t' : Requests} {event : RequestEvent} {events : List RequestEvent}
  {outcomes : List Bool} {k : ℕ} {a : Admission} {ending : Except String HttpResult}

/-- What a step can do. -/
theorem step_cases (h : s.step event = some s') :
    (∃ time, event = .elapse time ∧ s' = { s with now := s.now + time }) ∨
      (∃ k, event = .start k ∧ s.breaker.disabled s.now = true ∧ s' = s) ∨
      (∃ k, event = .start k ∧ s.inFlight k = none ∧ s.breaker.disabled s.now = false ∧
        s' = { s with
          breaker := { s.breaker with probeInFlight := s.breaker.tripped || s.breaker.probeInFlight }
          inFlight := Function.update s.inFlight k
            (some ⟨s.breaker.transportGeneration, s.breaker.tripped⟩) }) ∨
      ∃ k ending a, event = .finish k ending ∧ s.inFlight k = some a ∧
        s' = { s with
          breaker := (sent s.now a ending s.breaker).1
          printed := s.printed ++ (sent s.now a ending s.breaker).2
          inFlight := Function.update s.inFlight k none } := by
  cases event with
  | elapse time => exact .inl ⟨time, rfl, (Option.some.inj h).symm⟩
  | start k =>
    rw [step] at h
    split_ifs at h with hbusy
    have hidle : s.inFlight k = none := by simpa using hbusy
    cases hdisabled : s.breaker.disabled s.now with
    | true =>
      rw [Breaker.beginRequest_disabled hdisabled] at h
      exact .inr (.inl ⟨k, rfl, rfl, (Option.some.inj h).symm⟩)
    | false =>
      rw [Breaker.beginRequest_enabled hdisabled] at h
      exact .inr (.inr (.inl ⟨k, rfl, hidle, rfl, (Option.some.inj h).symm⟩))
  | finish k ending =>
    obtain ⟨a, ha, hs'⟩ := Option.map_eq_some_iff.mp h
    exact .inr (.inr (.inr ⟨k, ending, a, rfl, ha, hs'.symm⟩))

/-- Time does not go back. -/
theorem now_le_of_step (h : s.step event = some s') : s.now ≤ s'.now := by
  rcases step_cases h with ⟨time, -, rfl⟩ | ⟨k, -, -, rfl⟩ | ⟨k, -, -, -, rfl⟩ |
    ⟨k, ending, a, -, -, rfl⟩
  · exact Nat.le_add_right _ _
  · exact le_rfl
  · exact le_rfl
  · exact le_rfl

/-- Generations only go up. -/
theorem generation_le_of_step (h : s.step event = some s') :
    s.breaker.transportGeneration ≤ s'.breaker.transportGeneration := by
  rcases step_cases h with ⟨time, -, rfl⟩ | ⟨k, -, -, rfl⟩ | ⟨k, -, -, -, rfl⟩ |
    ⟨k, ending, a, -, -, rfl⟩
  · exact le_rfl
  · exact le_rfl
  · exact le_rfl
  · rcases @sent_cases s.breaker s.now a ending with ⟨-, hsent⟩ | ⟨result, -, -, ⟨-, hsent⟩ | ⟨-, hsent⟩⟩
    · simp [hsent]
    · simp [hsent]
    · simp [hsent]

/-- What holds in every reachable state. While the breaker is tripped, the probe is the only request of
the current generation; it is in flight exactly while `probe_in_flight` says so. -/
structure Sound (s : Requests) : Prop where
  generation_le : ∀ k a, s.inFlight k = some a → a.generation ≤ s.breaker.transportGeneration
  ordinary : ∀ k a, s.inFlight k = some a → a.generation = s.breaker.transportGeneration →
    a.probe = false → s.breaker.tripped = false
  probe : ∀ k a, s.inFlight k = some a → a.probe = true →
    a.generation = s.breaker.transportGeneration ∧ s.breaker.tripped = true ∧
      s.breaker.probeInFlight = true
  alone : ∀ j k a b, s.inFlight j = some a → s.inFlight k = some b → a.probe = true →
    b.probe = true → j = k
  waited : s.breaker.probeInFlight = true → ∃ k a, s.inFlight k = some a ∧ a.probe = true

theorem sound_initial : Sound machine.initial := by
  constructor
  · intro k a ha
    cases ha
  · intro k a ha
    cases ha
  · intro k a ha
    cases ha
  · intro j k a b ha
    cases ha
  · intro h
    cases h

/-- An admitted request is the probe if the breaker is tripped. -/
theorem Sound.admit (h : Sound s) (hk : s.inFlight k = none)
    (henabled : s.breaker.disabled s.now = false) : Sound { s with
      breaker := { s.breaker with probeInFlight := s.breaker.tripped || s.breaker.probeInFlight }
      inFlight := Function.update s.inFlight k
        (some ⟨s.breaker.transportGeneration, s.breaker.tripped⟩) } := by
  have hnoprobe : s.breaker.tripped = true → ∀ j b, s.inFlight j = some b → b.probe = false := by
    intro htripped j b hb
    by_contra hprobe
    rw [Bool.not_eq_false] at hprobe
    rw [Breaker.disabled, htripped, (h.probe j b hb hprobe).2.2] at henabled
    cases henabled
  constructor
  · intro j b hb
    rcases update_eq_some_iff.mp hb with ⟨-, rfl⟩ | ⟨-, hb⟩
    · exact le_rfl
    · exact h.generation_le j b hb
  · intro j b hb hcurrent hprobe
    rcases update_eq_some_iff.mp hb with ⟨-, rfl⟩ | ⟨-, hb⟩
    · exact hprobe
    · exact h.ordinary j b hb hcurrent hprobe
  · intro j b hb hprobe
    rcases update_eq_some_iff.mp hb with ⟨-, rfl⟩ | ⟨-, hb⟩
    · have htripped : s.breaker.tripped = true := hprobe
      exact ⟨rfl, htripped, by simp [htripped]⟩
    · obtain ⟨hcurrent, htripped, hflag⟩ := h.probe j b hb hprobe
      exact ⟨hcurrent, htripped, by simp [hflag]⟩
  · intro i j b c hb hc hprobeb hprobec
    rcases update_eq_some_iff.mp hb with ⟨rfl, rfl⟩ | ⟨-, hb'⟩
    · rcases update_eq_some_iff.mp hc with ⟨rfl, -⟩ | ⟨-, hc'⟩
      · rfl
      · rw [hnoprobe hprobeb j c hc'] at hprobec
        cases hprobec
    · rcases update_eq_some_iff.mp hc with ⟨rfl, rfl⟩ | ⟨-, hc'⟩
      · rw [hnoprobe hprobec i b hb'] at hprobeb
        cases hprobeb
      · exact h.alone i j b c hb' hc' hprobeb hprobec
  · intro hflag
    cases htripped : s.breaker.tripped with
    | true => exact ⟨k, _, Function.update_self .., rfl⟩
    | false =>
      have hflag' : s.breaker.probeInFlight = true := by simpa [htripped] using hflag
      obtain ⟨j, b, hb, hprobe⟩ := h.waited hflag'
      rw [(h.probe j b hb hprobe).2.1] at htripped
      cases htripped

/-- The end of a request that changes nothing was none of the probe. -/
theorem Sound.not_probe (h : Sound s) (ha : s.inFlight k = some a)
    (hidle : a.generation ≠ s.breaker.transportGeneration ∨ recorded a.probe ending = none) :
    a.probe = false := by
  by_contra hprobe
  rw [Bool.not_eq_false] at hprobe
  rcases hidle with hstale | hnone
  · exact hstale (h.probe k a ha hprobe).1
  · rw [hprobe] at hnone
    cases ending <;> cases hnone

/-- A request that is not the probe goes, and the breaker stays as it is. -/
theorem Sound.drop (h : Sound s) (ha : s.inFlight k = some a) (hprobe : a.probe = false)
    (printed : List String) : Sound { s with
      printed := printed
      inFlight := Function.update s.inFlight k none } := by
  have hold : ∀ {j b}, Function.update s.inFlight k none j = some b → s.inFlight j = some b :=
    fun hb ↦ (update_none_eq_some_iff.mp hb).2
  refine ⟨fun j b hb ↦ h.generation_le j b (hold hb), fun j b hb ↦ h.ordinary j b (hold hb),
    fun j b hb ↦ h.probe j b (hold hb), fun i j b c hb hc ↦ h.alone i j b c (hold hb) (hold hc), ?_⟩
  intro hflag
  obtain ⟨j, b, hb, hprobeb⟩ := h.waited hflag
  refine ⟨j, b, update_none_eq_some_iff.mpr ⟨?_, hb⟩, hprobeb⟩
  rintro rfl
  obtain rfl := Option.some.inj (ha.symm.trans hb)
  rw [hprobe] at hprobeb
  cases hprobeb

/-- When a request of the current generation ends, none of the others is a probe. -/
theorem Sound.others_not_probe (h : Sound s) (ha : s.inFlight k = some a)
    (hcurrent : a.generation = s.breaker.transportGeneration) {j : ℕ} {b : Admission}
    (hb : s.inFlight j = some b) (hjk : j ≠ k) : b.probe = false := by
  by_contra hprobe
  rw [Bool.not_eq_false] at hprobe
  cases hprobea : a.probe with
  | true => exact hjk (h.alone j k b a hb ha hprobe hprobea)
  | false =>
    have huntripped := h.ordinary k a ha hcurrent hprobea
    rw [(h.probe j b hb hprobe).2.1] at huntripped
    cases huntripped

/-- A new generation: what is in flight is of an earlier one. -/
theorem Sound.trip (h : Sound s) (ha : s.inFlight k = some a)
    (hcurrent : a.generation = s.breaker.transportGeneration) (failures retryAfter : ℕ)
    (printed : List String) : Sound { s with
      breaker := ⟨failures, retryAfter, false, s.breaker.transportGeneration + 1⟩
      printed := printed
      inFlight := Function.update s.inFlight k none } := by
  have hold : ∀ {j b}, Function.update s.inFlight k none j = some b →
      j ≠ k ∧ s.inFlight j = some b := fun hb ↦ update_none_eq_some_iff.mp hb
  have hlt : ∀ {j b}, Function.update s.inFlight k none j = some b →
      b.generation < s.breaker.transportGeneration + 1 := fun hb ↦
    Nat.lt_succ_of_le (h.generation_le _ _ (hold hb).2)
  have hnoprobe : ∀ {j b}, Function.update s.inFlight k none j = some b → b.probe = false :=
    fun hb ↦ h.others_not_probe ha hcurrent (hold hb).2 (hold hb).1
  constructor
  · exact fun j b hb ↦ (hlt hb).le
  · exact fun j b hb hgeneration ↦ absurd hgeneration (hlt hb).ne
  · intro j b hb hprobe
    rw [hnoprobe hb] at hprobe
    cases hprobe
  · intro i j b c hb hc hprobe
    rw [hnoprobe hb] at hprobe
    cases hprobe
  · intro hflag
    cases hflag

/-- The breaker is untripped: no probe is in flight any more. -/
theorem Sound.recover (h : Sound s) (ha : s.inFlight k = some a)
    (hcurrent : a.generation = s.breaker.transportGeneration) {failures : ℕ}
    (hfailures : ¬ maxConsecutiveTransportFailures ≤ failures) (retryAfter : ℕ) (printed : List String) :
    Sound { s with
      breaker := ⟨failures, retryAfter, false, s.breaker.transportGeneration⟩
      printed := printed
      inFlight := Function.update s.inFlight k none } := by
  have hold : ∀ {j b}, Function.update s.inFlight k none j = some b →
      j ≠ k ∧ s.inFlight j = some b := fun hb ↦ update_none_eq_some_iff.mp hb
  have hnoprobe : ∀ {j b}, Function.update s.inFlight k none j = some b → b.probe = false :=
    fun hb ↦ h.others_not_probe ha hcurrent (hold hb).2 (hold hb).1
  constructor
  · exact fun j b hb ↦ h.generation_le j b (hold hb).2
  · exact fun j b hb _ _ ↦ decide_eq_false hfailures
  · intro j b hb hprobe
    rw [hnoprobe hb] at hprobe
    cases hprobe
  · intro i j b c hb hc hprobe
    rw [hnoprobe hb] at hprobe
    cases hprobe
  · intro hflag
    cases hflag

theorem Sound.step (h : Sound s) (hstep : s.step event = some s') : Sound s' := by
  rcases step_cases hstep with ⟨time, -, rfl⟩ | ⟨k, -, -, rfl⟩ | ⟨k, -, hk, henabled, rfl⟩ |
    ⟨k, ending, a, -, ha, rfl⟩
  · exact ⟨h.generation_le, h.ordinary, h.probe, h.alone, h.waited⟩
  · exact h
  · exact h.admit hk henabled
  · rcases @sent_cases s.breaker s.now a ending with
      ⟨hidle, hsent⟩ | ⟨result, hcurrent, -, ⟨-, hsent⟩ | ⟨hmax, hsent⟩⟩
    · rw [hsent]
      exact h.drop ha (h.not_probe ha hidle) _
    · rw [hsent]
      exact h.trip ha hcurrent _ _ _
    · rw [hsent]
      exact h.recover ha hcurrent hmax _ _

theorem sound_of_reachable (h : machine.Reachable s) : Sound s :=
  h.invariant sound_initial fun _ _ _ _ hsound hstep ↦ hsound.step hstep

/-! ### The failures in a row -/

/-- The count is that of the failures in a row, as far as it goes. -/
theorem transportFailures_eq (h : machine.Run outcome outcomes s) :
    s.breaker.transportFailures = min maxConsecutiveTransportFailures (failuresInARow outcomes) := by
  induction h with
  | initial => rfl
  | @step outcomes s s' event hrun hstep ih =>
    have hsound := sound_of_reachable hrun.reachable
    rcases step_cases hstep with ⟨time, rfl, rfl⟩ | ⟨k, rfl, -, rfl⟩ | ⟨k, rfl, -, -, rfl⟩ |
      ⟨k, ending, a, rfl, ha, rfl⟩
    · simpa [outcome] using ih
    · simpa [outcome] using ih
    · simpa [outcome] using ih
    · rcases @sent_cases s.breaker s.now a ending with
        ⟨hidle, hsent⟩ | ⟨result, hcurrent, hrecorded, hsent⟩
      · have hnothing : outcome s (.finish k ending) = [] := by
          rcases hidle with hstale | hnone
          · simp [outcome, ha, hstale]
          · simp [outcome, ha, hnone]
        rw [hnothing, List.append_nil, hsent]
        exact ih
      · have hfailures : (sent s.now a ending s.breaker).1.transportFailures =
            Breaker.failuresAfter a.probe result s.breaker.transportFailures := by
          rcases hsent with ⟨-, hsent⟩ | ⟨-, hsent⟩
          · rw [hsent]
          · rw [hsent]
        show (sent s.now a ending s.breaker).1.transportFailures = _
        rw [hfailures]
        cases result with
        | response code => simp [outcome, ha, hcurrent, hrecorded, Breaker.failuresAfter]
        | failed message =>
          have houtcome : outcome s (.finish k ending) = [true] := by
            simp [outcome, ha, hcurrent, hrecorded]
          rw [houtcome, failuresInARow_append_true, Breaker.failuresAfter]
          cases hprobe : a.probe with
          | true =>
            have hmax := Breaker.tripped_iff.mp (hsound.probe k a ha hprobe).2.1
            rw [if_pos rfl]
            omega
          | false =>
            have hmax := mt Breaker.tripped_iff.mpr
              (by rw [hsound.ordinary k a ha hcurrent hprobe]; exact Bool.false_ne_true)
            rw [if_neg Bool.false_ne_true]
            omega

/-- The breaker is tripped exactly if the last outcomes were as many failures as it takes. -/
theorem tripped_iff_failuresInARow (h : machine.Run outcome outcomes s) :
    s.breaker.tripped = true ↔ maxConsecutiveTransportFailures ≤ failuresInARow outcomes := by
  rw [Breaker.tripped_iff, transportFailures_eq h]
  omega

/-! ### After a trip -/

/-- A trip begins a cool-down, with nothing in flight that counts. -/
theorem Trips.spec (h : Trips s event s') (hsound : Sound s) :
    s'.breaker.tripped = true ∧ s'.breaker.probeInFlight = false ∧
      s'.breaker.retryAfter = s'.now + transportCooldown ∧
      ∀ k a, s'.inFlight k = some a → a.generation < s'.breaker.transportGeneration := by
  obtain ⟨hstep, hlt⟩ := h
  rcases step_cases hstep with ⟨time, rfl, rfl⟩ | ⟨k, rfl, -, rfl⟩ | ⟨k, rfl, -, -, rfl⟩ |
    ⟨k, ending, a, rfl, ha, rfl⟩
  · exact absurd hlt (lt_irrefl _)
  · exact absurd hlt (lt_irrefl _)
  · exact absurd hlt (lt_irrefl _)
  · rcases @sent_cases s.breaker s.now a ending with
      ⟨-, hsent⟩ | ⟨result, hcurrent, -, ⟨hmax, hsent⟩ | ⟨-, hsent⟩⟩
    · simp [hsent] at hlt
    · rw [hsent]
      refine ⟨Breaker.tripped_iff.mpr hmax, rfl, rfl, fun j b hb ↦ ?_⟩
      exact Nat.lt_succ_of_le (hsound.generation_le j b (update_none_eq_some_iff.mp hb).2)
    · simp [hsent] at hlt

/-- From a trip on, as long as nothing is admitted: the breaker stays as it is, and requests only end. -/
structure Quiet (start s : Requests) : Prop where
  breaker : s.breaker = start.breaker
  printed : s.printed = start.printed
  inFlight : ∀ k a, s.inFlight k = some a → start.inFlight k = some a

theorem Quiet.refl : Quiet s s := ⟨rfl, rfl, fun _ _ h ↦ h⟩

/-- Assumes: only requests of earlier generations were in flight. A refused request and the end of one in
flight change nothing. -/
theorem Quiet.step {start : Requests} (h : Quiet start s)
    (hstale : ∀ k a, start.inFlight k = some a → a.generation < start.breaker.transportGeneration)
    (hdisabled : s.breaker.disabled s.now = true) (hstep : s.step event = some s') : Quiet start s' := by
  rcases step_cases hstep with ⟨time, -, rfl⟩ | ⟨k, -, -, rfl⟩ | ⟨k, -, -, henabled, rfl⟩ |
    ⟨k, ending, a, -, ha, rfl⟩
  · exact ⟨h.breaker, h.printed, h.inFlight⟩
  · exact h
  · rw [henabled] at hdisabled
    cases hdisabled
  · have hgeneration : a.generation ≠ s.breaker.transportGeneration :=
      h.breaker ▸ (hstale k a (h.inFlight k a ha)).ne
    rw [sent_stale hgeneration]
    refine ⟨h.breaker, by simpa using h.printed, fun j b hb ↦ ?_⟩
    exact h.inFlight j b (update_none_eq_some_iff.mp hb).2

theorem now_le_of_run {events : List RequestEvent} : ∀ {s s' : Requests},
    machine.run s events = some s' → s.now ≤ s'.now := by
  induction events with
  | nil =>
    intro s s' h
    exact (congrArg now (Option.some.inj h)).le
  | cons event rest ih =>
    intro s s' h
    obtain ⟨t, hnext, hrest⟩ := Option.bind_eq_some_iff.mp h
    exact (now_le_of_step hnext).trans (ih hrest)

/-- A breaker that waits for its cool-down refuses every request. -/
theorem disabled_of_quiet {start : Requests} (htripped : start.breaker.tripped = true)
    (h : Quiet start s) (hnow : s.now < start.breaker.retryAfter) :
    s.breaker.disabled s.now = true := by
  rw [Breaker.disabled, h.breaker, htripped]
  simp [hnow]

/-- Until the cool-down is over, nothing is admitted and nothing changes the breaker. -/
theorem quiet_of_run {start : Requests} (htripped : start.breaker.tripped = true)
    (hstale : ∀ k a, start.inFlight k = some a → a.generation < start.breaker.transportGeneration)
    {events : List RequestEvent} : ∀ {s s' : Requests}, Quiet start s →
      machine.run s events = some s' → s'.now < start.breaker.retryAfter → Quiet start s' := by
  induction events with
  | nil =>
    intro s s' h hrun _
    exact Option.some.inj hrun ▸ h
  | cons event rest ih =>
    intro s s' h hrun hnow
    obtain ⟨t, hnext, hrest⟩ := Option.bind_eq_some_iff.mp hrun
    have hearlier : s.now < start.breaker.retryAfter :=
      ((now_le_of_step hnext).trans (now_le_of_run hrest)).trans_lt hnow
    exact ih (h.step hstale (disabled_of_quiet htripped h hearlier) hnext) hrest hnow

/-- A request of an earlier generation that did not end is still in flight, and still of one. -/
theorem stale_of_run {events : List RequestEvent} : ∀ {s s' : Requests},
    machine.run s events = some s' → s.inFlight k = some a →
      a.generation < s.breaker.transportGeneration → (∀ ending, .finish k ending ∉ events) →
      s'.inFlight k = some a ∧ a.generation < s'.breaker.transportGeneration := by
  induction events with
  | nil =>
    intro s s' hrun ha hlt _
    exact Option.some.inj hrun ▸ ⟨ha, hlt⟩
  | cons event rest ih =>
    intro s s' hrun ha hlt hevents
    obtain ⟨t, hnext, hrest⟩ := Option.bind_eq_some_iff.mp hrun
    have hkept : t.inFlight k = some a := by
      rcases step_cases hnext with ⟨time, -, rfl⟩ | ⟨j, -, -, rfl⟩ | ⟨j, -, hj, -, rfl⟩ |
        ⟨j, ending, b, rfl, -, rfl⟩
      · exact ha
      · exact ha
      · have hne : k ≠ j := by
          rintro rfl
          rw [hj] at ha
          cases ha
        exact (Function.update_of_ne hne ..).trans ha
      · have hne : k ≠ j := by
          rintro rfl
          exact hevents ending List.mem_cons_self
        exact (Function.update_of_ne hne ..).trans ha
    exact ih hrest hkept (hlt.trans_le (generation_le_of_step hnext))
      fun ending hmem ↦ hevents ending (List.mem_cons_of_mem _ hmem)

/-! ### The probe -/

/-- A request ended in a response. -/
def answered : Except String HttpResult → Bool
  | .ok (.response _) => true
  | _ => false

/-- The end of a probe is always recorded, as a failure unless it was answered. -/
theorem failuresAfter_probe {result : HttpResult} {failures : ℕ}
    (hrecorded : recorded true ending = some result) :
    Breaker.failuresAfter true result failures = if answered ending then 0 else failures := by
  rcases ending with message | code | message
  · obtain rfl := Option.some.inj hrecorded
    rfl
  · obtain rfl := Option.some.inj hrecorded
    rfl
  · obtain rfl := Option.some.inj hrecorded
    rfl

/-- The end of the probe, whatever it is: no probe is in flight any more, and the breaker is untripped
after a response and tripped anew otherwise. -/
theorem Sound.probe_finish (h : Sound s) (ha : s.inFlight k = some a) (hprobe : a.probe = true)
    (hstep : s.step (.finish k ending) = some s') : s'.breaker.probeInFlight = false ∧
      if answered ending then
        (s'.breaker.beginRequest s'.now).1 = some ⟨s'.breaker.transportGeneration, false⟩
      else Trips s (.finish k ending) s' := by
  obtain ⟨hcurrent, htripped, -⟩ := h.probe k a ha hprobe
  rw [Breaker.tripped_iff] at htripped
  have hs' : s' = { s with
      breaker := (sent s.now a ending s.breaker).1
      printed := s.printed ++ (sent s.now a ending s.breaker).2
      inFlight := Function.update s.inFlight k none } := by
    obtain ⟨b, hb, hs'⟩ := Option.map_eq_some_iff.mp hstep
    obtain rfl := Option.some.inj (ha.symm.trans hb)
    exact hs'.symm
  rcases @sent_cases s.breaker s.now a ending with
    ⟨hidle, -⟩ | ⟨result, -, hrecorded, ⟨hmax, hsent⟩ | ⟨hmax, hsent⟩⟩
  · have hordinary := h.not_probe ha hidle
    rw [hprobe] at hordinary
    cases hordinary
  · rw [hprobe] at hrecorded
    rw [hprobe, failuresAfter_probe hrecorded] at hmax
    have hfailed : ¬ answered ending = true := by
      intro hanswered
      rw [if_pos hanswered] at hmax
      exact absurd hmax (by decide)
    rw [if_neg hfailed]
    refine ⟨by rw [hs', hsent], hstep, ?_⟩
    rw [hs', hsent]
    exact Nat.lt_succ_self _
  · have hanswered : answered ending = true := by
      by_contra hfailed
      rw [hprobe] at hrecorded
      rw [hprobe, failuresAfter_probe hrecorded, if_neg hfailed] at hmax
      exact hmax htripped
    have huntripped : s'.breaker.tripped = false := by
      rw [hs', hsent]
      exact decide_eq_false hmax
    have henabled : s'.breaker.disabled s'.now = false := by
      rw [Breaker.disabled, huntripped, Bool.false_and]
    rw [if_pos hanswered, Breaker.beginRequest_enabled henabled, huntripped]
    exact ⟨by rw [hs', hsent], rfl⟩

/-- Whether the next request is admitted while the breaker is tripped: only after the cool-down, only as
the probe, and only if no probe is in flight. -/
theorem beginRequest_of_tripped (htripped : s.breaker.tripped = true) :
    (s.breaker.beginRequest s.now).1 =
      if s.breaker.probeInFlight = false ∧ s.breaker.retryAfter ≤ s.now then
        some ⟨s.breaker.transportGeneration, true⟩
      else none := by
  by_cases hready : s.breaker.probeInFlight = false ∧ s.breaker.retryAfter ≤ s.now
  · have henabled : s.breaker.disabled s.now = false := by
      rw [Breaker.disabled, htripped, hready.1]
      simpa using hready.2
    rw [if_pos hready, Breaker.beginRequest_enabled henabled, htripped]
  · have hdisabled : s.breaker.disabled s.now = true := by
      rw [Breaker.disabled, htripped]
      cases hflag : s.breaker.probeInFlight with
      | true => rfl
      | false =>
        have hnow : ¬ s.breaker.retryAfter ≤ s.now := fun hle ↦ hready ⟨hflag, hle⟩
        simpa using hnow
    rw [if_neg hready, Breaker.beginRequest_disabled hdisabled]

/-! ### Requests are admitted again -/

/-- A run that goes on for ever, in which time passes and every request ends. -/
structure Endless (states : ℕ → Requests) (events : ℕ → RequestEvent) : Prop where
  next : ∀ i, (states i).step (events i) = some (states (i + 1))
  elapses : ∀ time, ∃ i, time ≤ (states i).now
  ends : ∀ i k, ((states i).inFlight k).isSome →
    ∃ j, i ≤ j ∧ ∃ ending, events j = .finish k ending

section Endless

variable {states : ℕ → Requests} {eventsAt : ℕ → RequestEvent}

theorem Endless.sound (h : Endless states eventsAt) (hstart : Sound (states 0)) (i : ℕ) :
    Sound (states i) := by
  induction i with
  | zero => exact hstart
  | succ i ih => exact ih.step (h.next i)

theorem Endless.now_mono (h : Endless states eventsAt) {i j : ℕ} (hij : i ≤ j) :
    (states i).now ≤ (states j).now := by
  induction j, hij using Nat.le_induction with
  | base => exact le_rfl
  | succ j _ ih => exact ih.trans (now_le_of_step (h.next j))

/-- While every request is refused, requests only end. -/
theorem Endless.inFlight_of_refused (h : Endless states eventsAt) {i j : ℕ} (hij : i ≤ j)
    (hrefused : ∀ j, i ≤ j → (states j).breaker.disabled (states j).now = true) :
    ∀ k a, (states j).inFlight k = some a → (states i).inFlight k = some a := by
  induction j, hij using Nat.le_induction with
  | base => exact fun k a ha ↦ ha
  | succ j hij ih =>
    intro k a ha
    refine ih k a ?_
    rcases step_cases (h.next j) with ⟨time, -, hs'⟩ | ⟨j', -, -, hs'⟩ | ⟨j', -, -, henabled, -⟩ |
      ⟨j', ending, b, -, -, hs'⟩
    · rw [hs'] at ha
      exact ha
    · rw [hs'] at ha
      exact ha
    · rw [hrefused j hij] at henabled
      cases henabled
    · rw [hs'] at ha
      exact (update_none_eq_some_iff.mp ha).2

/-- Requests are never refused for ever. -/
theorem Endless.exists_admits (h : Endless states eventsAt) (hstart : Sound (states 0)) (i : ℕ) :
    ∃ j, i ≤ j ∧ (states j).admits := by
  by_contra hnever
  push Not at hnever
  have hrefused : ∀ j, i ≤ j → (states j).breaker.disabled (states j).now = true := by
    intro j hij
    by_contra henabled
    rw [Bool.not_eq_true] at henabled
    refine hnever j hij ?_
    rw [admits, Breaker.beginRequest_enabled henabled]
    exact Option.some_ne_none _
  have htripped : ∀ j, i ≤ j → (states j).breaker.tripped = true := by
    intro j hij
    exact (Bool.and_eq_true_iff.mp (hrefused j hij)).1
  -- once the probe has ended, no other is admitted
  obtain ⟨m, him, hflag⟩ : ∃ m, i ≤ m ∧ (states m).breaker.probeInFlight = false := by
    by_contra hall
    push Not at hall
    obtain ⟨k, a, ha, hprobe⟩ := (h.sound hstart i).waited (by simpa using hall i le_rfl)
    obtain ⟨j, hij, ending, hevent⟩ := h.ends i k (by rw [ha]; rfl)
    have hnext := h.next j
    rw [hevent] at hnext
    obtain ⟨b, hb, -⟩ := Option.map_eq_some_iff.mp hnext
    obtain rfl := Option.some.inj
      (ha.symm.trans (h.inFlight_of_refused hij hrefused k b hb))
    exact hall (j + 1) (by omega) ((h.sound hstart j).probe_finish hb hprobe hnext).1
  -- so nothing in flight counts, and the breaker stays as it is until the cool-down is over
  have hsound := h.sound hstart m
  have hstale : ∀ k a, (states m).inFlight k = some a →
      a.generation < (states m).breaker.transportGeneration := by
    intro k a ha
    refine lt_of_le_of_ne (hsound.generation_le k a ha) fun hcurrent ↦ ?_
    cases hprobe : a.probe with
    | true =>
      rw [(hsound.probe k a ha hprobe).2.2] at hflag
      cases hflag
    | false =>
      have huntripped := hsound.ordinary k a ha hcurrent hprobe
      rw [htripped m him] at huntripped
      cases huntripped
  have hquiet : ∀ j, m ≤ j → Quiet (states m) (states j) := by
    intro j hmj
    induction j, hmj using Nat.le_induction with
    | base => exact .refl
    | succ j hmj ih => exact ih.step hstale (hrefused j (him.trans hmj)) (h.next j)
  obtain ⟨n, hn⟩ := h.elapses (states m).breaker.retryAfter
  have hlate : m ≤ max m n := le_max_left _ _
  have hdisabled := hrefused (max m n) (him.trans hlate)
  rw [Breaker.disabled, (hquiet _ hlate).breaker, hflag, Bool.false_or, Bool.and_eq_true,
    decide_eq_true_eq] at hdisabled
  exact absurd hdisabled.2 (not_lt.mpr (hn.trans (h.now_mono (le_max_right _ _))))

end Endless

/-! ### The breaker is safe -/

/-- While the breaker is tripped, the probe is the only request of the current generation. -/
theorem Sound.only_probe (h : Sound s) (htripped : s.breaker.tripped = true) {j : ℕ} {b : Admission}
    (ha : s.inFlight k = some a) (hb : s.inFlight j = some b)
    (hcurrenta : a.generation = s.breaker.transportGeneration)
    (hcurrentb : b.generation = s.breaker.transportGeneration) : j = k ∧ a.probe = true := by
  have hprobe : ∀ k a, s.inFlight k = some a → a.generation = s.breaker.transportGeneration →
      a.probe = true := by
    intro k a ha hcurrent
    by_contra hordinary
    rw [Bool.not_eq_true] at hordinary
    rw [h.ordinary k a ha hcurrent hordinary] at htripped
    cases htripped
  exact ⟨h.alone j k b a hb ha (hprobe j b hb hcurrentb) (hprobe k a ha hcurrenta),
    hprobe k a ha hcurrenta⟩

/-- A request of an earlier generation ends without a trace. -/
theorem stale_finish (ha : s.inFlight k = some a)
    (hstale : a.generation < s.breaker.transportGeneration)
    (hstep : s.step (.finish k ending) = some s') :
    s'.breaker = s.breaker ∧ s'.printed = s.printed := by
  obtain ⟨b, hb, rfl⟩ := Option.map_eq_some_iff.mp hstep
  obtain rfl := Option.some.inj (ha.symm.trans hb)
  rw [sent_stale hstale.ne]
  exact ⟨rfl, List.append_nil _⟩

/-- Exactly one request in flight will clear `probe_in_flight`, however it ends. -/
theorem Sound.exists_unique_probe (h : Sound s) (hflag : s.breaker.probeInFlight = true) :
    ∃! k, (s.inFlight k).isSome ∧ ∀ ending s', s.step (.finish k ending) = some s' →
      s'.breaker.probeInFlight = false := by
  obtain ⟨k, a, ha, hprobe⟩ := h.waited hflag
  obtain ⟨hcurrent, htripped, -⟩ := h.probe k a ha hprobe
  refine ⟨k, ⟨by rw [ha]; rfl, fun ending s' hstep ↦ (h.probe_finish ha hprobe hstep).1⟩, ?_⟩
  rintro j ⟨hsome, hclears⟩
  obtain ⟨b, hb⟩ := Option.isSome_iff_exists.mp hsome
  rcases (h.generation_le j b hb).eq_or_lt with hcurrentb | hstale
  · exact (h.only_probe htripped ha hb hcurrent hcurrentb).1
  · have hstep : s.step (.finish j (.error "")) = some _ := Option.map_eq_some_iff.mpr ⟨b, hb, rfl⟩
    have hcleared := hclears _ _ hstep
    rw [(stale_finish hb hstale hstep).1, hflag] at hcleared
    cases hcleared

/-- Of every state of every run. The breaker is tripped by as many failures in a row as it takes. From a
trip on, nothing is admitted and nothing changes the breaker until the cool-down is over, and requests
admitted before it end without a trace. While the breaker is tripped, a request is admitted only after the
cool-down and as the probe, one at a time; a response to it enables the cache again, and any other end
trips the breaker anew. While `probe_in_flight` is set, exactly one request in flight will clear it, and
requests are never refused for ever. -/
theorem breaker_safe (hrun : machine.Run outcome outcomes s) :
    (s.breaker.tripped = true ↔ maxConsecutiveTransportFailures ≤ failuresInARow outcomes) ∧
      (∀ event s₁, Trips s event s₁ → s₁.breaker.retryAfter = s₁.now + transportCooldown ∧
        ∀ events s₂, machine.run s₁ events = some s₂ →
          (s₂.now < s₁.breaker.retryAfter → ¬ s₂.admits ∧ s₂.breaker = s₁.breaker ∧
            ∀ k a, s₂.inFlight k = some a → s₁.inFlight k = some a) ∧
          ∀ k a, s₁.inFlight k = some a → (∀ ending, .finish k ending ∉ events) →
            s₂.inFlight k = some a ∧ ∀ ending s₃, s₂.step (.finish k ending) = some s₃ →
              s₃.breaker = s₂.breaker ∧ s₃.printed = s₂.printed) ∧
      (s.breaker.tripped = true →
        ((s.breaker.beginRequest s.now).1 =
          if s.breaker.probeInFlight = false ∧ s.breaker.retryAfter ≤ s.now then
            some ⟨s.breaker.transportGeneration, true⟩
          else none) ∧
        ∀ j k a b, s.inFlight k = some a → s.inFlight j = some b →
          a.generation = s.breaker.transportGeneration →
          b.generation = s.breaker.transportGeneration → j = k ∧ a.probe = true) ∧
      (∀ k a ending s', s.inFlight k = some a → a.probe = true →
        s.step (.finish k ending) = some s' →
          if answered ending then
            (s'.breaker.beginRequest s'.now).1 = some ⟨s'.breaker.transportGeneration, false⟩
          else Trips s (.finish k ending) s') ∧
      (s.breaker.probeInFlight = true → ∃! k, (s.inFlight k).isSome ∧
        ∀ ending s', s.step (.finish k ending) = some s' → s'.breaker.probeInFlight = false) ∧
      ∀ states eventsAt, states 0 = s → Endless states eventsAt → ∀ i, ∃ j, i ≤ j ∧
        (states j).admits := by
  have hsound := sound_of_reachable hrun.reachable
  refine ⟨tripped_iff_failuresInARow hrun, fun event s₁ htrip ↦ ?_,
    fun htripped ↦ ⟨beginRequest_of_tripped htripped,
      fun j k a b ha hb ↦ hsound.only_probe htripped ha hb⟩,
    fun k a ending s' ha hprobe hstep ↦ (hsound.probe_finish ha hprobe hstep).2,
    hsound.exists_unique_probe, fun states eventsAt hstart hendless ↦
      hendless.exists_admits (hstart ▸ hsound)⟩
  obtain ⟨htripped, -, hretry, hstale⟩ := htrip.spec hsound
  refine ⟨hretry, fun events s₂ hevents ↦ ⟨fun hnow ↦ ?_, fun k a ha hgoing ↦ ?_⟩⟩
  · have hquiet := quiet_of_run htripped hstale .refl hevents hnow
    refine ⟨fun hadmits ↦ hadmits ?_, hquiet.breaker, hquiet.inFlight⟩
    rw [Breaker.beginRequest_disabled (disabled_of_quiet htripped hquiet hnow)]
  · obtain ⟨hkept, hlt⟩ := stale_of_run hevents ha (hstale k a ha) hgoing
    exact ⟨hkept, fun ending s₃ hstep ↦ stale_finish hkept hlt hstep⟩

/-- Five requests begin, three of them fail, one of the others is answered, and a minute later the probe is
sent. -/
def probing : List RequestEvent :=
  [.start 0, .start 1, .start 2, .start 3, .start 4, .finish 0 (.ok (.failed "timed out")),
    .finish 1 (.ok (.failed "timed out")), .finish 2 (.ok (.failed "timed out")),
    .finish 3 (.ok (.response 200)), .elapse 60000000, .start 5]

theorem probing_isSome : (machine.run machine.initial probing).isSome := by decide

theorem breaker_safe_probing :
    ((machine.run machine.initial probing).get probing_isSome).breaker =
        ⟨3, 60000000, true, 1⟩ ∧
      ∃! k, (((machine.run machine.initial probing).get probing_isSome).inFlight k).isSome ∧
        ∀ ending s', ((machine.run machine.initial probing).get probing_isSome).step
          (.finish k ending) = some s' → s'.breaker.probeInFlight = false :=
  ⟨by decide, (breaker_safe (Machine.Run.log .initial (Option.some_get probing_isSome).symm)).2.2.2.2.1
    (by decide)⟩

end Requests

end Holbuild.Cache
