import Holbuild.Library.Machine
import Holbuild.RemoteExec.Tables
import Mathlib.Data.List.Find
import Mathlib.Logic.Function.Basic

/-!
# Waiting claims and their wakes

The calls of `Coordinator.claim` in one event loop, with `_wake_claim`, `_pass_wake` and the releases
that make actions ready. What a call does between two awaits is one step (`step`); at any await it can be
cancelled, its attempt can claim an action, find nothing or raise, its sleep can time out at any moment,
and its worker can be gone. The database is what an attempt answers, so any answer may come.

The code counts the actions made ready in `made_ready`, which `_pass_wake` takes back and counts again.
`Loop.released` keeps the tiers of them all, and each wake has its number among them: neither is in the
code, and no step depends on them.

`Loop.Sound` says that the waiters are the calls that sleep and were not woken, and that the counter is the
number of actions made ready. `Loop.Attended` is the property itself, possibly without the wake that is
being handed over. `no_lost_wake` is the result.
-/

set_option autoImplicit false
set_option relaxedAutoImplicit false

namespace Holbuild.RemoteExec.ClaimWaits

open Library

/-! ### The event loop -/

/-- What a wake hands over: the tier of an action that was made ready, and how many were before it. -/
structure Wake where
  tier : Tier
  number : ℕ
deriving DecidableEq

/-- The await that a call of `claim` is at: the attempt, with the `made_ready` read before it, the sleep in
`claim_waiters`, or the question whether its worker has gone. -/
inductive Phase
  | attempting (madeReady : ℤ)
  | sleeping
  | asking
  | over
deriving DecidableEq

/-- A call of `claim`: whether it has a `disconnected` to ask, the wake its future holds, and the numbers of
actions made ready when it last began an attempt and last went to sleep, which the code does not keep. -/
structure Call where
  tiers : List Tier
  asks : Bool
  phase : Phase
  woken : Option Wake
  tried : ℕ
  slept : ℕ

/-- An entry of `claim_waiters`: its future is that of the call. -/
structure Waiter where
  tiers : List Tier
  call : ℕ
deriving DecidableEq

/-- What the calls share, the calls, and the tiers of the actions made ready, oldest first. -/
structure Loop where
  madeReady : ℤ
  waiters : List Waiter
  calls : ℕ → Option Call
  released : List Tier

namespace Loop

/-- The calls with one that changed. -/
def set (id : ℕ) (c : Call) (s : Loop) : Loop :=
  { s with calls := Function.update s.calls id (some c) }

/-- `not woken.done()`. -/
def pending (s : Loop) (w : Waiter) : Bool := (s.calls w.call).any (·.woken = none)

/-- `_wake_claim`. -/
def wakeClaim (wake : Wake) (s : Loop) : Loop :=
  match s.waiters.find? fun w ↦ wake.tier ∈ w.tiers && s.pending w with
  | none => { s with madeReady := s.madeReady + 1 }
  | some w => { s with
      madeReady := s.madeReady + 1
      waiters := s.waiters.erase w
      calls := Function.update s.calls w.call
        ((s.calls w.call).map fun c ↦ { c with woken := some wake }) }

/-- `_pass_wake`. -/
def passWake (woken : Option Wake) (s : Loop) : Loop :=
  match woken with
  | none => s
  | some wake => wakeClaim wake { s with madeReady := s.madeReady - 1 }

/-- An action made ready by `_release_batch`. -/
def makeReady (tier : Tier) (s : Loop) : Loop :=
  wakeClaim ⟨tier, s.released.length⟩ { s with released := s.released ++ [tier] }

/-- The head of the loop of `claim`, to the await of the attempt. -/
def attempt (id : ℕ) (c : Call) (s : Loop) : Loop :=
  s.set id { c with phase := .attempting s.madeReady, tried := s.released.length }

/-- The end of the loop of `claim`: the question whether the worker has gone, or the next attempt. -/
def ask (id : ℕ) (c : Call) (s : Loop) : Loop :=
  if c.asks then s.set id { c with phase := .asking } else s.attempt id c

/-- Going to sleep. -/
def sleep (id : ℕ) (c : Call) (s : Loop) : Loop :=
  { s.set id { c with phase := .sleeping, slept := s.released.length } with
    waiters := s.waiters ++ [⟨c.tiers, id⟩] }

/-- `claim_waiters.remove`, which may find nothing to remove. -/
def withdraw (id : ℕ) (c : Call) (s : Loop) : Loop :=
  { s with waiters := s.waiters.erase ⟨c.tiers, id⟩ }

/-- The end of a call. -/
def leave (id : ℕ) (c : Call) (s : Loop) : Loop := s.set id { c with phase := .over }

end Loop

/-- A call begins, an attempt ends the call or finds nothing, a sleep ends by a wake or its timeout, the
worker is there or gone, a call is cancelled, or a release made actions of some tiers ready. -/
inductive Event
  | call (id : ℕ) (tiers : List Tier) (asks : Bool)
  | ended (id : ℕ)
  | nothing (id : ℕ)
  | resumed (id : ℕ)
  | answered (id : ℕ) (gone : Bool)
  | cancelled (id : ℕ)
  | release (tiers : List Tier)

/-- One event, up to the next await. -/
def step (s : Loop) : Event → Option Loop
  | .call id tiers asks =>
    if (s.calls id).isSome then none else some (s.attempt id ⟨tiers, asks, .over, none, 0, 0⟩)
  | .ended id =>
    match s.calls id with
    | some c =>
      match c.phase with
      | .attempting _ => some (s.leave id c)
      | _ => none
    | none => none
  | .nothing id =>
    match s.calls id with
    | some c =>
      match c.phase with
      | .attempting madeReady =>
        let c := { c with woken := none }
        some (if s.madeReady = madeReady then s.sleep id c else s.ask id c)
      | _ => none
    | none => none
  | .resumed id =>
    match s.calls id with
    | some c => if c.phase = .sleeping then some ((s.withdraw id c).ask id c) else none
    | none => none
  | .answered id gone =>
    match s.calls id with
    | some c =>
      if c.phase = .asking then
        some (if gone then (s.leave id c).passWake c.woken else s.attempt id c)
      else none
    | none => none
  | .cancelled id =>
    match s.calls id with
    | some c =>
      if c.phase = .over then none
      else
        let s := if c.phase = .sleeping then s.withdraw id c else s
        some ((s.leave id c).passWake c.woken)
    | none => none
  | .release tiers => some (tiers.foldl (fun s tier ↦ s.makeReady tier) s)

/-- The calls of `claim` in a process, from none. -/
def claimWaits : Machine Loop Event where
  initial := ⟨0, [], fun _ ↦ none, []⟩
  step := step

/-! ### The invariant -/

/-- The wake of a call that is asleep, or asks whether its worker has gone: it began no attempt since. -/
def Call.unconsumed (c : Call) : Option Wake :=
  match c.phase with
  | .sleeping | .asking => c.woken
  | .attempting _ | .over => none

/-- A call takes care of an action of its tiers: it tried after the action was made ready, or holds the
wake for it. -/
def Call.Serves (c : Call) (wake : Wake) : Prop :=
  wake.tier ∈ c.tiers ∧ (wake.number < c.tried ∨ c.unconsumed = some wake)

/-- What holds of every call: its attempts were begun at a count of the past, its wake is of an action of
its tiers, and an attempt was begun after it. -/
structure Call.Sound (released : List Tier) (c : Call) : Prop where
  tried_le : c.tried ≤ released.length
  attempting : ∀ madeReady, c.phase = .attempting madeReady → madeReady = c.tried
  woken : ∀ wake, c.woken = some wake → wake.tier ∈ c.tiers ∧
    released[wake.number]? = some wake.tier
  consumed : ∀ madeReady wake, c.phase = .attempting madeReady → c.woken = some wake →
    wake.number < c.tried

namespace Loop

/-- The waiters are calls that sleep and were not woken. -/
structure Sound (s : Loop) : Prop where
  waiters_nodup : (s.waiters.map (·.call)).Nodup
  asleep : ∀ w ∈ s.waiters, ∃ c, s.calls w.call = some c ∧ c.tiers = w.tiers ∧
    c.phase = .sleeping ∧ c.woken = none
  calls : ∀ id c, s.calls id = some c → c.Sound s.released

/-- An action made ready is taken care of, or no waiter of its tier slept before it. -/
def Attends (s : Loop) (wake : Wake) : Prop :=
  (∃ id c, s.calls id = some c ∧ c.Serves wake) ∨
    ∀ w ∈ s.waiters, wake.tier ∈ w.tiers → ∀ c, s.calls w.call = some c → wake.number < c.slept

/-- Every action made ready is attended, but the one of a wake that is being handed over. -/
def Attended (but : Option Wake) (s : Loop) : Prop :=
  ∀ wake : Wake, s.released[wake.number]? = some wake.tier → but ≠ some wake → s.Attends wake

/-- The invariant. -/
structure Invariant (s : Loop) : Prop where
  sound : s.Sound
  madeReady_eq : s.madeReady = s.released.length
  attended : s.Attended none

variable {s : Loop} {id : ℕ} {c c' : Call} {wake : Wake} {but : Option Wake}

@[simp] theorem set_waiters : (s.set id c).waiters = s.waiters := rfl
@[simp] theorem set_released : (s.set id c).released = s.released := rfl
@[simp] theorem set_madeReady : (s.set id c).madeReady = s.madeReady := rfl
@[simp] theorem set_calls_self : (s.set id c).calls id = some c := Function.update_self ..

theorem set_calls_of_ne {id' : ℕ} (hne : id' ≠ id) : (s.set id c).calls id' = s.calls id' :=
  Function.update_of_ne hne ..

theorem Sound.not_waiting (hs : s.Sound) (hc : s.calls id = some c) (hphase : c.phase ≠ .sleeping) :
    ∀ w ∈ s.waiters, w.call ≠ id := by
  rintro w hw rfl
  obtain ⟨c', hc', -, hsleeping, -⟩ := hs.asleep w hw
  rw [hc] at hc'
  exact hphase (Option.some.inj hc' ▸ hsleeping)

/-- Assumes: a call that no waiter is of, and that is sound. -/
theorem Sound.set (hs : s.Sound) (hfree : ∀ w ∈ s.waiters, w.call ≠ id) (hc : c.Sound s.released) :
    (s.set id c).Sound := by
  refine ⟨hs.waiters_nodup, fun w hw ↦ ?_, fun id' c' hc' ↦ ?_⟩
  · rw [set_calls_of_ne (hfree w hw)]
    exact hs.asleep w hw
  · by_cases hid : id' = id
    · subst hid
      rw [set_calls_self] at hc'
      exact Option.some.inj hc' ▸ hc
    · rw [set_calls_of_ne hid] at hc'
      exact hs.calls id' c' hc'

/-- Assumes: a call that no waiter is of, and that serves what it served. -/
theorem Attended.set (hs : s.Attended but) (hfree : ∀ w ∈ s.waiters, w.call ≠ id) {but' : Option Wake}
    (hbut : ∀ wake : Wake, but' ≠ some wake → but ≠ some wake)
    (hserves : ∀ c₀ wake, s.calls id = some c₀ → s.released[wake.number]? = some wake.tier →
      but' ≠ some wake → c₀.Serves wake → c.Serves wake) : (s.set id c).Attended but' := by
  intro wake hreleased hnot
  rcases hs wake hreleased (hbut wake hnot) with ⟨id', c', hc', hserved⟩ | hwaiters
  · left
    by_cases hid : id' = id
    · subst hid
      exact ⟨id', c, set_calls_self, hserves c' wake hc' hreleased hnot hserved⟩
    · exact ⟨id', c', (set_calls_of_ne hid).trans hc', hserved⟩
  · right
    intro w hw htier c' hc'
    rw [set_calls_of_ne (hfree w hw)] at hc'
    exact hwaiters w hw htier c' hc'

/-! ### The operations -/

/-- The beginning of an attempt keeps the invariant: the call then serves every action of its tiers that was
made ready. -/
theorem Invariant.attempt (hs : s.Invariant) (hfree : ∀ w ∈ s.waiters, w.call ≠ id)
    (hc : c.Sound s.released) (htiers : ∀ c₀, s.calls id = some c₀ → c₀.tiers = c.tiers) :
    (s.attempt id c).Invariant := by
  have hlt : ∀ wake : Wake, s.released[wake.number]? = some wake.tier →
      wake.number < s.released.length := fun wake hwake ↦ (List.getElem?_eq_some_iff.mp hwake).1
  refine ⟨hs.sound.set hfree ⟨le_rfl, ?_, hc.woken, ?_⟩, hs.madeReady_eq,
    hs.attended.set hfree (fun _ h ↦ h) ?_⟩
  · rintro _ ⟨⟩
    exact hs.madeReady_eq
  · exact fun _ wake _ hwoken ↦ hlt wake (hc.woken wake hwoken).2
  · exact fun c₀ wake hc₀ hreleased _ hserves ↦
      ⟨htiers c₀ hc₀ ▸ hserves.1, Or.inl (hlt wake hreleased)⟩

/-- The end of the loop keeps the invariant, when the call serves what it served while it asks. -/
theorem Invariant.ask (hs : s.Invariant) (hfree : ∀ w ∈ s.waiters, w.call ≠ id)
    (hc : c.Sound s.released) (htiers : ∀ c₀, s.calls id = some c₀ → c₀.tiers = c.tiers)
    (hserves : ∀ c₀ wake, s.calls id = some c₀ → c₀.Serves wake →
      { c with phase := .asking }.Serves wake) : (s.ask id c).Invariant := by
  unfold Loop.ask
  split
  · refine ⟨hs.sound.set hfree ⟨hc.tried_le, ?_, hc.woken, ?_⟩, hs.madeReady_eq,
      hs.attended.set hfree (fun _ h ↦ h) fun c₀ wake hc₀ _ _ ↦ hserves c₀ wake hc₀⟩
    · exact fun _ h ↦ by cases h
    · exact fun _ _ h ↦ by cases h
  · exact hs.attempt hfree hc htiers

/-- Going to sleep keeps the invariant: no action was made ready since. -/
theorem Invariant.sleep (hs : s.Invariant) (hfree : ∀ w ∈ s.waiters, w.call ≠ id)
    (hc : c.Sound s.released) (hwoken : c.woken = none)
    (hserves : ∀ c₀ wake, s.calls id = some c₀ → c₀.Serves wake → wake.tier ∈ c.tiers ∧
      wake.number < c.tried) : (s.sleep id c).Invariant := by
  have hset : (s.set id { c with phase := .sleeping, slept := s.released.length }).Attended none :=
    hs.attended.set hfree (fun _ h ↦ h) fun c₀ wake hc₀ _ _ h ↦
      ⟨(hserves c₀ wake hc₀ h).1, Or.inl (hserves c₀ wake hc₀ h).2⟩
  have hsound : (s.set id { c with phase := .sleeping, slept := s.released.length }).Sound := by
    refine hs.sound.set hfree ⟨hc.tried_le, ?_, hc.woken, ?_⟩
    · exact fun _ h ↦ by cases h
    · exact fun _ _ h ↦ by cases h
  refine ⟨⟨?_, fun w hw ↦ ?_, hsound.calls⟩, hs.madeReady_eq, fun wake hreleased hnot ↦ ?_⟩
  · rw [Loop.sleep, List.map_append, List.map_singleton]
    refine List.Nodup.append hs.sound.waiters_nodup (List.nodup_singleton _) ?_
    refine List.disjoint_singleton.mpr fun hmem ↦ ?_
    obtain ⟨w, hw, hcall⟩ := List.mem_map.mp hmem
    exact hfree w hw hcall
  · rcases List.mem_append.mp hw with hw | hw
    · exact hsound.asleep w hw
    · rw [List.mem_singleton.mp hw]
      exact ⟨_, set_calls_self, rfl, rfl, hwoken⟩
  · rcases hset wake hreleased hnot with hserved | hwaiters
    · exact Or.inl hserved
    · refine Or.inr fun w hw htier c' hc' ↦ ?_
      rcases List.mem_append.mp hw with hw | hw
      · exact hwaiters w hw htier c' hc'
      · rw [List.mem_singleton.mp hw] at hc'
        rw [← Option.some.inj (set_calls_self.symm.trans hc')]
        exact (List.getElem?_eq_some_iff.mp hreleased).1

/-- Withdrawing a waiter keeps the invariant. -/
theorem Invariant.withdraw (hs : s.Invariant) : (s.withdraw id c).Invariant := by
  have hsub : ∀ w ∈ (s.withdraw id c).waiters, w ∈ s.waiters := fun w hw ↦ List.mem_of_mem_erase hw
  refine ⟨⟨?_, fun w hw ↦ hs.sound.asleep w (hsub w hw), hs.sound.calls⟩, hs.madeReady_eq,
    fun wake hreleased hnot ↦ ?_⟩
  · exact (List.erase_sublist.map _).nodup hs.sound.waiters_nodup
  · exact (hs.attended wake hreleased hnot).imp_right fun h w hw ↦ h w (hsub w hw)

/-- No waiter is left of a call that withdrew. -/
theorem Sound.not_waiting_withdraw (hs : s.Sound) (hc : s.calls id = some c) :
    ∀ w ∈ (s.withdraw id c).waiters, w.call ≠ id := by
  rintro w hw rfl
  have hnodup : s.waiters.Nodup := List.Nodup.of_map _ hs.waiters_nodup
  obtain ⟨hne, hmem⟩ := hnodup.mem_erase_iff.mp hw
  obtain ⟨c', hc', htiers, -, -⟩ := hs.asleep w hmem
  obtain rfl := Option.some.inj (hc.symm.trans hc')
  refine hne ?_
  rw [htiers]

/-- A waiter is pending. -/
theorem Sound.pending_eq (hs : s.Sound) {w : Waiter} (hw : w ∈ s.waiters) : s.pending w = true := by
  obtain ⟨c, hc, -, -, hwoken⟩ := hs.asleep w hw
  simp [pending, hc, hwoken]

/-- Assumes: an action made ready whose wake is handed over, and a count without it. The wake goes to the
first waiter of its tier, and the invariant holds. -/
theorem invariant_wakeClaim (hs : s.Sound) (hmade : s.madeReady + 1 = s.released.length)
    (hattended : s.Attended (some wake)) (hreleased : s.released[wake.number]? = some wake.tier) :
    (wakeClaim wake s).Invariant := by
  unfold wakeClaim
  split
  · rename_i hfind
    refine ⟨⟨hs.waiters_nodup, hs.asleep, hs.calls⟩, hmade, fun wake' hreleased' _ ↦ ?_⟩
    by_cases hwake : wake = wake'
    · subst hwake
      refine Or.inr fun w hw htier ↦ absurd htier ?_
      have hnone := List.find?_eq_none.mp hfind w hw
      simpa [hs.pending_eq hw] using hnone
    · exact hattended wake' hreleased' fun h ↦ hwake (Option.some.inj h)
  · rename_i w hfind
    have hw := List.mem_of_find?_eq_some hfind
    have htier : wake.tier ∈ w.tiers := by
      have hp := List.find?_some hfind
      simp only [Bool.and_eq_true, decide_eq_true_eq] at hp
      exact hp.1
    obtain ⟨c, hc, htiers, hsleeping, hwoken⟩ := hs.asleep w hw
    have hcalls : (s.calls w.call).map (fun c ↦ { c with woken := some wake }) =
        some { c with woken := some wake } := by rw [hc]; rfl
    rw [hcalls]
    have hnodup : s.waiters.Nodup := List.Nodup.of_map _ hs.waiters_nodup
    have hother : ∀ w' ∈ s.waiters.erase w, w' ∈ s.waiters ∧ w'.call ≠ w.call := by
      intro w' hw'
      obtain ⟨hne, hmem⟩ := hnodup.mem_erase_iff.mp hw'
      exact ⟨hmem, fun hcall ↦ hne (List.inj_on_of_nodup_map hs.waiters_nodup hmem hw hcall)⟩
    let s₁ : Loop := { s with madeReady := s.madeReady + 1, waiters := s.waiters.erase w }
    have hs₁ : s₁.Sound := by
      refine ⟨(List.erase_sublist.map _).nodup hs.waiters_nodup, fun w' hw' ↦ ?_, hs.calls⟩
      exact hs.asleep w' (hother w' hw').1
    have hfree : ∀ w' ∈ s₁.waiters, w'.call ≠ w.call := fun w' hw' ↦ (hother w' hw').2
    have hcall : { c with woken := some wake }.Sound s₁.released := by
      refine ⟨(hs.calls _ c hc).tried_le, (hs.calls _ c hc).attempting, ?_, ?_⟩
      · rintro _ ⟨⟩
        exact ⟨htiers ▸ htier, hreleased⟩
      · intro _ _ hphase
        rw [hsleeping] at hphase
        cases hphase
    have hattended₁ : s₁.Attended (some wake) := fun wake' hreleased' hnot ↦
      (hattended wake' hreleased' hnot).imp_right fun h w' hw' ↦ h w' (hother w' hw').1
    have hset : (s₁.set w.call { c with woken := some wake }).Attended (some wake) := by
      refine hattended₁.set hfree (fun _ h ↦ h) fun c₀ wake' hc₀ _ _ hserves ↦ ?_
      obtain rfl := Option.some.inj (hc.symm.trans hc₀)
      refine ⟨hserves.1, hserves.2.imp_right fun h ↦ ?_⟩
      simp [Call.unconsumed, hsleeping, hwoken] at h
    refine ⟨hs₁.set hfree hcall, hmade, fun wake' hreleased' _ ↦ ?_⟩
    by_cases hwake : wake = wake'
    · subst hwake
      refine Or.inl ⟨w.call, _, set_calls_self, htiers ▸ htier, Or.inr ?_⟩
      simp [Call.unconsumed, hsleeping]
    · exact hset wake' hreleased' fun h ↦ hwake (Option.some.inj h)

/-- An action made ready keeps the invariant. -/
theorem Invariant.makeReady (hs : s.Invariant) (tier : Tier) : (s.makeReady tier).Invariant := by
  have hkept : ∀ {n : ℕ} {t : Tier}, s.released[n]? = some t → (s.released ++ [tier])[n]? = some t := by
    intro n t hn
    rw [List.getElem?_append_left (List.getElem?_eq_some_iff.mp hn).1, hn]
  refine invariant_wakeClaim ⟨hs.sound.waiters_nodup, hs.sound.asleep, fun id c hc ↦ ?_⟩ ?_ ?_ ?_
  · obtain ⟨htried, hattempting, hwoken, hconsumed⟩ := hs.sound.calls id c hc
    refine ⟨?_, hattempting, fun wake h ↦ ⟨(hwoken wake h).1, hkept (hwoken wake h).2⟩, hconsumed⟩
    simp only [List.length_append, List.length_singleton]
    omega
  · simp [hs.madeReady_eq]
  · intro wake hreleased hnot
    refine hs.attended wake ?_ (by simp)
    by_cases hlt : wake.number < s.released.length
    · rwa [List.getElem?_append_left hlt] at hreleased
    · have hlast : wake.number = s.released.length := by
        have hle := (List.getElem?_eq_some_iff.mp hreleased).1
        simp only [List.length_append, List.length_singleton] at hle
        omega
      rw [hlast, List.getElem?_concat_length, Option.some.injEq] at hreleased
      exact absurd (by rw [hreleased, ← hlast]) hnot
  · rw [List.getElem?_concat_length]

/-- A call that leaves and passes its wake on keeps the invariant. -/
theorem Invariant.leave (hs : s.Invariant) (hfree : ∀ w ∈ s.waiters, w.call ≠ id)
    (hc : s.calls id = some c) : ((s.leave id c).passWake c.woken).Invariant := by
  have hcall := hs.sound.calls id c hc
  have hsound : (s.leave id c).Sound := by
    refine hs.sound.set hfree ⟨hcall.tried_le, ?_, hcall.woken, ?_⟩
    · exact fun _ h ↦ by cases h
    · exact fun _ _ h ↦ by cases h
  have hattended : (s.leave id c).Attended c.woken := by
    refine hs.attended.set hfree (fun _ _ ↦ by simp) fun c₀ wake hc₀ _ hnot hserves ↦ ?_
    obtain rfl := Option.some.inj (hc.symm.trans hc₀)
    refine ⟨hserves.1, hserves.2.imp_right fun h ↦ ?_⟩
    unfold Call.unconsumed at h
    split at h
    · exact absurd h hnot
    · exact absurd h hnot
    · cases h
    · cases h
  cases hwoken : c.woken with
  | none =>
    rw [hwoken] at hattended
    exact ⟨hsound, hs.madeReady_eq, hattended⟩
  | some wake =>
    refine invariant_wakeClaim ⟨hsound.waiters_nodup, hsound.asleep, hsound.calls⟩ ?_
      (hwoken ▸ hattended) (hcall.woken wake hwoken).2
    exact (sub_add_cancel _ _).trans hs.madeReady_eq

/-- A call that attempts and leaves without passing a wake keeps the invariant. -/
theorem Invariant.ended (hs : s.Invariant) (hfree : ∀ w ∈ s.waiters, w.call ≠ id)
    (hc : s.calls id = some c) {madeReady : ℤ} (hphase : c.phase = .attempting madeReady) :
    (s.leave id c).Invariant := by
  have hcall := hs.sound.calls id c hc
  refine ⟨hs.sound.set hfree ⟨hcall.tried_le, ?_, hcall.woken, ?_⟩, hs.madeReady_eq,
    hs.attended.set hfree (fun _ h ↦ h) fun c₀ wake hc₀ _ _ hserves ↦ ?_⟩
  · exact fun _ h ↦ by cases h
  · exact fun _ _ h ↦ by cases h
  · obtain rfl := Option.some.inj (hc.symm.trans hc₀)
    refine ⟨hserves.1, hserves.2.imp_right fun h ↦ ?_⟩
    simp [Call.unconsumed, hphase] at h

/-- Every event keeps the invariant. -/
theorem Invariant.step (hs : s.Invariant) {e : Event} {s' : Loop} (hstep : step s e = some s') :
    s'.Invariant := by
  cases e with
  | call id tiers asks =>
    simp only [ClaimWaits.step] at hstep
    split_ifs at hstep with hnew
    obtain rfl := Option.some.inj hstep
    have hnone : s.calls id = none := by simpa using hnew
    refine hs.attempt (fun w hw hcall ↦ ?_) ⟨Nat.zero_le _, ?_, ?_, ?_⟩ fun c₀ hc₀ ↦ ?_
    · obtain ⟨c, hc, -⟩ := hs.sound.asleep w hw
      rw [hcall, hnone] at hc
      cases hc
    · exact fun _ h ↦ by cases h
    · exact fun _ h ↦ by cases h
    · exact fun _ _ h ↦ by cases h
    · rw [hnone] at hc₀
      cases hc₀
  | ended id =>
    simp only [ClaimWaits.step] at hstep
    split at hstep
    · rename_i c hc
      split at hstep
      · rename_i madeReady hphase
        obtain rfl := Option.some.inj hstep
        exact hs.ended (hs.sound.not_waiting hc (by simp [hphase])) hc hphase
      · cases hstep
    · cases hstep
  | nothing id =>
    simp only [ClaimWaits.step] at hstep
    split at hstep
    · rename_i c hc
      split at hstep
      · rename_i madeReady hphase
        obtain rfl := Option.some.inj hstep
        have hfree := hs.sound.not_waiting hc (by simp [hphase])
        have hcall := hs.sound.calls id c hc
        have hsound : { c with woken := none }.Sound s.released := by
          refine ⟨hcall.tried_le, hcall.attempting, ?_, ?_⟩
          · exact fun _ h ↦ by cases h
          · exact fun _ _ _ h ↦ by cases h
        have hserves : ∀ c₀ wake, s.calls id = some c₀ → c₀.Serves wake → wake.tier ∈ c.tiers ∧
            wake.number < c.tried := by
          intro c₀ wake hc₀ hserves
          obtain rfl := Option.some.inj (hc.symm.trans hc₀)
          refine ⟨hserves.1, hserves.2.resolve_right fun h ↦ ?_⟩
          simp [Call.unconsumed, hphase] at h
        split
        · exact hs.sleep hfree hsound rfl hserves
        · refine hs.ask hfree hsound (fun c₀ hc₀ ↦ ?_) fun c₀ wake hc₀ h ↦ ?_
          · rw [Option.some.inj (hc₀.symm.trans hc)]
          · exact ⟨(hserves c₀ wake hc₀ h).1, Or.inl (hserves c₀ wake hc₀ h).2⟩
      · cases hstep
    · cases hstep
  | resumed id =>
    simp only [ClaimWaits.step] at hstep
    split at hstep
    · rename_i c hc
      split_ifs at hstep with hphase
      obtain rfl := Option.some.inj hstep
      refine hs.withdraw.ask (hs.sound.not_waiting_withdraw hc) (hs.sound.calls id c hc)
        (fun c₀ hc₀ ↦ ?_) fun c₀ wake hc₀ hserves ↦ ?_
      · rw [Option.some.inj (hc₀.symm.trans hc)]
      · obtain rfl := Option.some.inj (hc.symm.trans hc₀)
        refine ⟨hserves.1, hserves.2.imp_right fun h ↦ ?_⟩
        simpa [Call.unconsumed, hphase] using h
    · cases hstep
  | answered id gone =>
    simp only [ClaimWaits.step] at hstep
    split at hstep
    · rename_i c hc
      split_ifs at hstep with hphase hgone
      · obtain rfl := Option.some.inj hstep
        exact hs.leave (hs.sound.not_waiting hc (by simp [hphase])) hc
      · obtain rfl := Option.some.inj hstep
        refine hs.attempt (hs.sound.not_waiting hc (by simp [hphase])) (hs.sound.calls id c hc)
          fun c₀ hc₀ ↦ ?_
        rw [Option.some.inj (hc₀.symm.trans hc)]
    · cases hstep
  | cancelled id =>
    simp only [ClaimWaits.step] at hstep
    split at hstep
    · rename_i c hc
      split_ifs at hstep with hover hphase
      · obtain rfl := Option.some.inj hstep
        exact hs.withdraw.leave (hs.sound.not_waiting_withdraw hc) hc
      · obtain rfl := Option.some.inj hstep
        exact hs.leave (hs.sound.not_waiting hc hphase) hc
    · cases hstep
  | release tiers =>
    obtain rfl := Option.some.inj hstep
    induction tiers generalizing s with
    | nil => exact hs
    | cons tier rest ih => exact ih (hs.makeReady tier) rfl

end Loop

/-- In every reachable state the invariant holds. -/
theorem invariant {s : Loop} (hs : claimWaits.Reachable s) : s.Invariant := by
  refine hs.invariant ⟨⟨List.nodup_nil, ?_, ?_⟩, rfl, ?_⟩ fun _ _ _ _ hinvariant hstep ↦
    hinvariant.step hstep
  · exact fun w hw ↦ by cases hw
  · exact fun id c hc ↦ by cases hc
  · exact fun wake hreleased ↦ by simp [claimWaits] at hreleased

/-! ### What the invariant says -/

section Reachable

variable {s s' : Loop} {id : ℕ} {c : Call} {wake : Wake}

/-- The wake goes to the first waiter of its tier. -/
theorem unconsumed_wakeClaim (hs : s.Sound) {w : Waiter}
    (hfind : s.waiters.find? (wake.tier ∈ ·.tiers) = some w) :
    w ∉ (Loop.wakeClaim wake s).waiters ∧
      ∃ c, (Loop.wakeClaim wake s).calls w.call = some c ∧ c.unconsumed = some wake := by
  have hw := List.mem_of_find?_eq_some hfind
  have hnodup : s.waiters.Nodup := List.Nodup.of_map _ hs.waiters_nodup
  obtain ⟨c, hc, -, hsleeping, -⟩ := hs.asleep w hw
  have hpending : s.waiters.find? (fun w ↦ wake.tier ∈ w.tiers && s.pending w) = some w := by
    rw [← hfind]
    exact List.find?_congr fun w hw ↦ by simp [hs.pending_eq hw]
  simp only [Loop.wakeClaim, hpending]
  refine ⟨hnodup.not_mem_erase, { c with woken := some wake }, ?_, ?_⟩
  · rw [Function.update_self, hc]
    rfl
  · simp [Call.unconsumed, hsleeping]

/-- A call that was woken and leaves before it tries hands its wake to the first waiter of its tier. -/
theorem handed_on (hs : claimWaits.Reachable s) (hc : s.calls id = some c)
    (hwake : c.unconsumed = some wake) {e : Event} (he : e = .cancelled id ∨ e = .answered id true)
    (hstep : step s e = some s') {w : Waiter}
    (hfind : s.waiters.find? (wake.tier ∈ ·.tiers) = some w) :
    w ∉ s'.waiters ∧ ∃ c', s'.calls w.call = some c' ∧ c'.unconsumed = some wake := by
  have hsound := (invariant hs).sound
  have hawake : c.woken = some wake ∧ c.phase ≠ .over := by
    unfold Call.unconsumed at hwake
    split at hwake <;> simp_all
  have hfree : ∀ w ∈ s.waiters, w.call ≠ id := by
    rintro w hw rfl
    obtain ⟨c', hc', -, -, hnone⟩ := hsound.asleep w hw
    rw [Option.some.inj (hc'.symm.trans hc), hawake.1] at hnone
    cases hnone
  have hwithdraw : s.withdraw id c = s := by
    have hnot : (⟨c.tiers, id⟩ : Waiter) ∉ s.waiters := fun hmem ↦ hfree _ hmem rfl
    rw [Loop.withdraw, List.erase_of_not_mem hnot]
  have hleft : s' = (s.leave id c).passWake (some wake) := by
    rcases he with rfl | rfl
    · simp only [step, hc, hwithdraw, ite_self, hawake] at hstep
      exact (Option.some.inj hstep).symm
    · simp only [step, hc, hawake.1] at hstep
      split_ifs at hstep
      exact (Option.some.inj hstep).symm
  have hcall := hsound.calls id c hc
  have hleave : (s.leave id c).Sound := by
    refine hsound.set hfree ⟨hcall.tried_le, ?_, hcall.woken, ?_⟩
    · exact fun _ h ↦ by cases h
    · exact fun _ _ h ↦ by cases h
  let s₁ : Loop := { s.leave id c with madeReady := (s.leave id c).madeReady - 1 }
  have hs₁ : s₁.Sound := ⟨hleave.waiters_nodup, hleave.asleep, hleave.calls⟩
  rw [hleft]
  exact unconsumed_wakeClaim hs₁ hfind

/-- A call whose attempt found nothing does not go to sleep when an action was made ready during it. -/
theorem tries_again (hs : claimWaits.Reachable s) (hc : s.calls id = some c)
    (hlate : c.tried < s.released.length) (hstep : step s (.nothing id) = some s') :
    (∀ w ∈ s'.waiters, w.call ≠ id) ∧ ∃ c', s'.calls id = some c' ∧
      (c'.phase = .asking ∨ ∃ madeReady, c'.phase = .attempting madeReady ∧
        c'.tried = s'.released.length) := by
  simp only [step, hc] at hstep
  split at hstep
  · rename_i madeReady hphase
    obtain rfl := Option.some.inj hstep
    have hsnapshot := ((invariant hs).sound.calls id c hc).attempting madeReady hphase
    have hmade := (invariant hs).madeReady_eq
    have hfree := (invariant hs).sound.not_waiting hc (by simp [hphase])
    rw [if_neg (by omega)]
    unfold Loop.ask
    split
    · exact ⟨hfree, _, Loop.set_calls_self, Or.inl rfl⟩
    · exact ⟨hfree, _, Loop.set_calls_self, Or.inr ⟨_, rfl, rfl⟩⟩
  · cases hstep

/-- When an action was made ready and a call of its tier sleeps since before, a call of its tier began an
attempt after it or holds its wake. A call that was woken and leaves before it tries hands its wake to the
first waiter of its tier. A call does not go to sleep when an action was made ready during its attempt. -/
theorem no_lost_wake (hs : claimWaits.Reachable s) :
    (∀ number tier, s.released[number]? = some tier → ∀ w ∈ s.waiters, tier ∈ w.tiers →
      ∀ c, s.calls w.call = some c → c.slept ≤ number →
        ∃ id c, s.calls id = some c ∧ tier ∈ c.tiers ∧
          (number < c.tried ∨ c.unconsumed = some ⟨tier, number⟩)) ∧
    (∀ id c wake e s' w, s.calls id = some c → c.unconsumed = some wake →
      e = .cancelled id ∨ e = .answered id true → step s e = some s' →
        s.waiters.find? (wake.tier ∈ ·.tiers) = some w →
          w ∉ s'.waiters ∧ ∃ c', s'.calls w.call = some c' ∧ c'.unconsumed = some wake) ∧
    (∀ id c s', s.calls id = some c → c.tried < s.released.length →
      step s (.nothing id) = some s' → (∀ w ∈ s'.waiters, w.call ≠ id) ∧
        ∃ c', s'.calls id = some c' ∧ (c'.phase = .asking ∨
          ∃ madeReady, c'.phase = .attempting madeReady ∧ c'.tried = s'.released.length)) := by
  refine ⟨fun number tier hreleased w hw htier c hc hslept ↦ ?_,
    fun id c wake e s' w hc hwake he hstep hfind ↦ handed_on hs hc hwake he hstep hfind,
    fun id c s' hc hlate hstep ↦ tries_again hs hc hlate hstep⟩
  rcases (invariant hs).attended ⟨tier, number⟩ hreleased (by simp) with
    ⟨id, c, hc, hserves⟩ | hwaiters
  · exact ⟨id, c, hc, hserves⟩
  · have hlt : number < c.slept := hwaiters w hw htier c hc
    omega

end Reachable

/-- Two calls sleep, and an action is made ready, which wakes the first. -/
def sampleWaits : List Event :=
  [.call 0 [.standard] true, .nothing 0, .call 1 [.high, .standard] true, .nothing 1,
    .release [.standard]]

theorem sampleWaits_isSome : (claimWaits.run claimWaits.initial sampleWaits).isSome := by
  decide

theorem no_lost_wake_sampleWaits :
    ∃ id c, ((claimWaits.run claimWaits.initial sampleWaits).get sampleWaits_isSome).calls id =
      some c ∧ .standard ∈ c.tiers ∧ (0 < c.tried ∨ c.unconsumed = some ⟨.standard, 0⟩) :=
  (no_lost_wake (Machine.reachable_of_run sampleWaits_isSome)).1 0 .standard rfl
    ⟨[.high, .standard], 1⟩ (by decide) (by decide) _ rfl (by decide)

end Holbuild.RemoteExec.ClaimWaits
