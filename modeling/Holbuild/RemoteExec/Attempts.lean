import Holbuild.RemoteExec.Progress
import Mathlib.Algebra.Order.BigOperators.Group.Finset

/-!
# The attempts of a batch are bounded

The `attempts` column counts the claims of an action less the results that its worker was unavailable,
and stays bounded whatever the workers report (`attempts_bounded`), although two kinds of retries ignore
`max_attempts`: the move to the high tier, and the re-queue of a built theory that another action reports
missing.

The bound is a potential argument. `ActionRow.charge` is what an action has spent of its allowance: its
attempts, and the one that a waiting or ready row is about to make, less the one that the move to the high
tier is for. The charge is at most `max_attempts`, but for the re-queues by other actions, and each of those
is paid by an attempt of the action that reports: `ActionRow.settled`, the attempts of an action that have
ended, grows, and it does so below `max_attempts`. So the charge is at most `max_attempts` and what the other
actions have settled, each up to `max_attempts - 1` (`BatchRow.Bounded`).
-/

set_option autoImplicit false
set_option relaxedAutoImplicit false

namespace Holbuild.RemoteExec

open Library

/-! ### Counting -/

/-- The action that a claim is of. -/
def Mark.claimedKey? : Mark → Option String
  | .claimed key _ => some key
  | .unavailable _ => none

/-- The action that an unavailable result is of. -/
def Mark.unavailableKey? : Mark → Option String
  | .claimed _ _ => none
  | .unavailable key => some key

/-- The claims of an action less its unavailable results. -/
def net (marks : List Mark) (key : String) : ℤ :=
  ((marks.filterMap Mark.claimedKey?).count key : ℤ) - (marks.filterMap Mark.unavailableKey?).count key

@[simp] theorem net_nil (key : String) : net [] key = 0 := rfl

theorem net_claimed (key : String) (token : Uuid) (k : String) :
    net [.claimed key token] k = if k = key then 1 else 0 := by
  change (([key].count k : ℕ) : ℤ) - (([] : List String).count k : ℕ) = _
  by_cases hk : k = key
  · simp [hk]
  · simp [hk, Ne.symm hk]

theorem net_unavailable (key k : String) :
    net [.unavailable key] k = if k = key then -1 else 0 := by
  change ((([] : List String).count k : ℕ) : ℤ) - ([key].count k : ℕ) = _
  by_cases hk : k = key
  · simp [hk]
  · simp [hk, Ne.symm hk]

theorem net_append (first second : List Mark) (key : String) :
    net (first ++ second) key = net first key + net second key := by
  simp only [net, List.filterMap_append, List.count_append]
  omega

/-- The attempts of an action that have ended. -/
def ActionRow.settled (a : ActionRow) : ℤ := a.attempts - if a.state = .running then 1 else 0

/-- What an action has spent of its allowance. -/
def ActionRow.charge (a : ActionRow) : ℤ :=
  a.attempts + (if a.state.queued then 1 else 0) - if a.tier = .high then 1 else 0

/-- What an action has settled, as far as it can pay for the re-queue of others. -/
def ActionRow.paid (limit : ℤ) (a : ActionRow) : ℤ := min a.settled (limit - 1)

/-- What becomes of the rows under a change with some marks, when `blocked` is the action, if any, whose
attempt pays for the re-queue of another. -/
structure Pays (limit : ℤ) (marks : List Mark) (blocked : Option String) (a a' : ActionRow) : Prop where
  inputKey_eq : a'.inputKey = a.inputKey
  attempts_eq : a'.attempts = a.attempts + net marks a.inputKey
  settled_le : a.settled ≤ a'.settled
  charge_le : a'.charge ≤ a.charge ∨ a'.charge ≤ limit ∨
    ∃ c, blocked = some c ∧ a.inputKey ≠ c ∧ a'.charge ≤ a.charge + 1
  grows : ∀ c, blocked = some c → a.inputKey = c → a.settled < a'.settled ∧ a.settled < limit - 1

variable {limit : ℤ} {marks : List Mark} {blocked : Option String}

/-! ### What the changes pay -/

theorem Kept.queued {a a' : ActionRow} (ha : Kept a a') : a'.state.queued = a.state.queued := by
  obtain ⟨n, s, depth, count, rfl | ⟨hqueued, hqueued'⟩, rfl⟩ := ha
  · rfl
  · exact hqueued'.trans hqueued.symm

/-- A kept row counts as before. -/
theorem Kept.counts {a a' : ActionRow} (ha : Kept a a') :
    a'.attempts = a.attempts ∧ a'.settled = a.settled ∧ a'.charge = a.charge := by
  have hqueued := ha.queued
  have hrunning : a'.state = .running ↔ a.state = .running := ha.state_eq_iff rfl
  obtain ⟨n, s, depth, count, -, rfl⟩ := ha
  refine ⟨rfl, ?_, ?_⟩
  · simp only [ActionRow.settled, hrunning]
  · simp only [ActionRow.charge, hqueued]

/-- What a row pays, a row kept from it pays. -/
theorem Pays.kept {a x a' : ActionRow} (ha : Pays limit marks blocked a x) (hkept : Kept x a') :
    Pays limit marks blocked a a' := by
  obtain ⟨hattempts, hsettled, hcharge⟩ := hkept.counts
  refine ⟨hkept.inputKey.trans ha.inputKey_eq, hattempts.trans ha.attempts_eq, ?_, ?_, ?_⟩
  · rw [hsettled]
    exact ha.settled_le
  · rw [hcharge]
    exact ha.charge_le
  · rw [hsettled]
    exact ha.grows

/-- A row that stays as it is pays nothing. -/
theorem Pays.refl {a : ActionRow} (hmarks : net marks a.inputKey = 0)
    (hblocked : ∀ c, blocked = some c → a.inputKey ≠ c) : Pays limit marks blocked a a :=
  ⟨rfl, by rw [hmarks, add_zero], le_rfl, Or.inl le_rfl, fun c hc h ↦ absurd h (hblocked c hc)⟩

/-- Assumes: a running row, a report on its attempt, and a state in which nobody works on it. What the row
pays. -/
theorem pays_setState {f : ActionRow → ActionRow} {tier : Option Tier} {back : ℤ} {a : ActionRow}
    {s : ActionState} (hf : Records f tier back) (hrunning : a.state = .running) (hs : s ≠ .running)
    (hnet : net marks a.inputKey = -back) (hback : back ≤ 1)
    (hcharge : a.attempts - back + (if s.queued then 1 else 0) -
        (if tier.getD a.tier = .high then 1 else 0) ≤ a.attempts - (if a.tier = .high then 1 else 0) ∨
      a.attempts - back + (if s.queued then 1 else 0) -
        (if tier.getD a.tier = .high then 1 else 0) ≤ limit)
    (hgrows : ∀ c, blocked = some c → a.inputKey = c → back = 0 ∧ a.attempts < limit) :
    Pays limit marks blocked a { f a with state := s } := by
  obtain ⟨log, failure, heq⟩ := hf a
  have hcharge₀ : a.charge = a.attempts - if a.tier = .high then 1 else 0 := by
    simp [ActionRow.charge, hrunning, ActionState.queued]
  have hsettled₀ : a.settled = a.attempts - 1 := by
    simp [ActionRow.settled, hrunning]
  rw [heq]
  refine ⟨rfl, ?_, ?_, ?_, fun c hc hkey ↦ ?_⟩
  · rw [hnet]
    exact sub_eq_add_neg _ _
  · rw [hsettled₀]
    simp only [ActionRow.settled, hs, if_false, sub_zero]
    omega
  · rw [hcharge₀]
    exact hcharge.imp (fun h ↦ h) Or.inl
  · obtain ⟨hzero, hlimit⟩ := hgrows c hc hkey
    rw [hsettled₀]
    simp only [ActionRow.settled, hs, if_false, sub_zero]
    omega

/-- A row that is cancelled, or stays as it is, pays nothing. -/
theorem pays_cancelled {a a' : ActionRow} (hmarks : net marks a.inputKey = 0)
    (ha : if a.state.unfinished then a' = { a with state := .cancelled } else a' = a) :
    Pays limit marks none a a' := by
  split at ha
  · rw [ha]
    refine ⟨rfl, by rw [hmarks, add_zero], ?_, Or.inl ?_, fun c hc ↦ by cases hc⟩
    · simp only [ActionRow.settled]
      split <;> simp
    · simp only [ActionRow.charge, show ActionState.cancelled.queued = false from rfl,
        Bool.false_eq_true, if_false]
      split_ifs <;> omega
  · rw [ha]
    exact Pays.refl hmarks fun c hc ↦ by cases hc

/-- A row that is re-queued pays one attempt, of which it is charged when another action is blocked by
it. -/
theorem pays_requeued {a a' : ActionRow} (hmarks : net marks a.inputKey = 0)
    (hlimit : a.state = .done → a.attempts < limit ∨ ∃ c, blocked = some c)
    (hblocked : ∀ c, blocked = some c → a.inputKey ≠ c)
    (ha : Kept (if a.state = .done then { a with state := .waiting } else a) a') :
    Pays limit marks blocked a a' := by
  refine Pays.kept ?_ ha
  split
  · rename_i hdone
    have hcharge : ({ a with state := .waiting } : ActionRow).charge = a.charge + 1 := by
      simp only [ActionRow.charge, hdone, show ActionState.waiting.queued = true from rfl,
        show ActionState.done.queued = false from rfl, Bool.false_eq_true, if_false, if_true]
      split_ifs <;> omega
    refine ⟨rfl, by rw [hmarks, add_zero], ?_, Or.inr ?_, fun c hc h ↦ absurd h (hblocked c hc)⟩
    · simp [ActionRow.settled, hdone]
    · rcases hlimit hdone with hlimit | ⟨c, hc⟩
      · left
        simp only [ActionRow.charge, show ActionState.waiting.queued = true from rfl]
        split_ifs <;> omega
      · exact Or.inr ⟨c, hc, hblocked c hc, hcharge.le⟩
  · exact Pays.refl hmarks hblocked

namespace BatchRow

variable {b b' : BatchRow} {settings : Settings}

/-- Assumes: what the row of an attempt pays, and what the others pay. -/
theorem pays_of_touched {lease : LeaseRow} {a : ActionRow} (hleased : b.Leased)
    (hattempt : Attempt b lease a) {f : ActionRow → ActionRow} {s : ActionState}
    {change rest : ActionRow → ActionRow → Prop} {rows : List ActionRow}
    (hrows : Evolve (Touched lease.inputKey change rest) b.actions rows)
    (hchange : ∀ c c', change c c' → Kept { f c with state := s } c')
    (hattempted : Pays limit marks blocked a { f a with state := s })
    (hrest : ∀ c c', c.inputKey ≠ lease.inputKey → rest c c' → Pays limit marks blocked c c') :
    Evolve (Pays limit marks blocked) b.actions rows := by
  refine hrows.and_mem.imp fun c c' hc ↦ ?_
  obtain ⟨hmem, htouched⟩ := hc
  rw [touched_iff] at htouched
  by_cases hkey : c.inputKey = lease.inputKey
  · obtain rfl := eq_of_key_eq hleased.keys_nodup hmem hattempt.action_mem
      (hkey.trans hattempt.inputKey_eq.symm)
    exact hattempted.kept (hchange c c' (htouched.1 hkey))
  · exact hrest c c' hkey (htouched.2 hkey)

/-- Assumes: a running row and a report on its attempt that leaves tier and attempts alone, before a state
in which nobody waits. What the row pays. -/
theorem pays_ended {f : ActionRow → ActionRow} {a : ActionRow} {s : ActionState}
    (hf : Records f none 0) (hrunning : a.state = .running) (hs : s ≠ .running)
    (hqueued : s.queued = false) : Pays limit [] none a { f a with state := s } :=
  pays_setState hf hrunning hs rfl (by simp) (Or.inl (by simp [hqueued])) fun c hc ↦ by cases hc

/-- Assumes: a running row that used up less than its attempts, and a report on its attempt that leaves
tier and attempts alone. What the row pays when it is retried. -/
theorem pays_retried {f : ActionRow → ActionRow} {a : ActionRow} (hf : Records f none 0)
    (hrunning : a.state = .running) (hlimit : a.attempts < limit) :
    Pays limit [] blocked a { f a with state := .waiting } := by
  refine pays_setState hf hrunning (by simp) rfl (by simp) (Or.inr ?_) fun _ _ _ ↦ ⟨rfl, hlimit⟩
  simp only [show ActionState.waiting.queued = true from rfl, if_true]
  split <;> omega

/-- What every change pays, a blocked action being one of the batch. -/
theorem pays_of_change (hleased : b.Leased) (hchange : Change settings b marks b') :
    ∃ blocked, (∀ c, blocked = some c → c ∈ b.keys) ∧
      Evolve (Pays settings.maxAttempts marks blocked) b.actions b'.actions := by
  have hnone : ∀ c : String, (none : Option String) = some c → c ∈ b.keys := fun c hc ↦ by cases hc
  have hrunning : ∀ {lease a}, Attempt b lease a → a.state = .running := fun hattempt ↦
    hleased.leasesRun _ hattempt.lease_mem _ hattempt.action_mem hattempt.inputKey_eq
  have hsame : ∀ {a a' : ActionRow}, a' = a → Pays settings.maxAttempts [] none a a' := by
    rintro a _ rfl
    exact Pays.refl rfl fun c hc ↦ by cases hc
  cases hchange with
  | @claim a now token worker hstate ha hready htoken =>
    refine ⟨none, hnone, (evolve_updateAction b a.inputKey _).and_mem.imp fun c c' hc ↦ ?_⟩
    obtain ⟨hmem, htouched⟩ := hc
    rw [touched_iff] at htouched
    by_cases hkey : c.inputKey = a.inputKey
    · obtain rfl := eq_of_key_eq hleased.keys_nodup hmem ha hkey
      rw [htouched.1 rfl]
      refine ⟨rfl, ?_, ?_, Or.inl ?_, fun c hc ↦ by cases hc⟩
      · rw [net_claimed, if_pos rfl]
      · simp [ActionRow.settled, hready]
      · simp [ActionRow.charge, hready, ActionState.queued]
    · rw [htouched.2 hkey]
      exact Pays.refl (by rw [net_claimed, if_neg hkey]) fun c hc ↦ by cases hc
  | heartbeat now token => exact ⟨none, hnone, evolve_refl (fun a ↦ hsame rfl) _⟩
  | makeReady keys hstate =>
    refine ⟨none, hnone, (evolve_makeReady b keys).imp ?_⟩
    rintro a a' (rfl | ⟨hwaiting, -, rfl⟩)
    · exact hsame rfl
    · exact (hsame rfl).kept ⟨a.remainingDeps, .ready, a.criticalDepth, a.descendantCount,
        Or.inr ⟨by rw [hwaiting]; rfl, rfl⟩, rfl⟩
  | @requeue parent hstate hparent hdone hattempts =>
    refine ⟨none, hnone, (evolve_requeue b _).and_mem.imp fun c c' hc ↦ ?_⟩
    obtain ⟨hmem, htouched⟩ := hc
    rw [touched_iff] at htouched
    by_cases hkey : c.inputKey = parent.inputKey
    · obtain rfl := eq_of_key_eq hleased.keys_nodup hmem hparent hkey
      exact pays_requeued rfl (fun _ ↦ Or.inl hattempts) (fun c hc ↦ by cases hc)
        (htouched.1 rfl).kept
    · exact (hsame rfl).kept (htouched.2 hkey).kept
  | @evict a text hstate ha hdone =>
    have hrows := evolve_failBatch (b := b) a.inputKey (f := fun a ↦ a) (fun _ ↦ rfl) ("resubmit: " ++ text)
    rw [updateAction_self] at hrows
    refine ⟨none, hnone, hrows.and_mem.imp fun c c' hc ↦ ?_⟩
    obtain ⟨hmem, htouched⟩ := hc
    rw [touched_iff] at htouched
    by_cases hkey : c.inputKey = a.inputKey
    · obtain rfl := eq_of_key_eq hleased.keys_nodup hmem ha hkey
      rw [htouched.1 rfl]
      refine ⟨rfl, (add_zero _).symm, ?_, Or.inl ?_, fun c hc ↦ by cases hc⟩
      · simp [ActionRow.settled, hdone]
      · simp [ActionRow.charge, hdone, ActionState.queued]
    · exact pays_cancelled rfl (htouched.2 hkey)
  | stop failure hstate hended =>
    exact ⟨none, hnone, (evolve_endBatch b _ failure).imp fun a a' ha ↦ pays_cancelled rfl ha⟩
  | @ends lease _ _ _ hends =>
    cases hends with
    | @finish a f hattempt hf =>
      refine ⟨none, hnone, ?_⟩
      unfold BatchRow.finish
      rw [finishIfDone_actions]
      exact pays_of_touched hleased hattempt
        (evolve_setState_refresh (b := b.deleteLease lease.attemptToken) lease.inputKey hf.inputKey .done
          _) (fun c c' hc ↦ hc.kept) (pays_ended hf (hrunning hattempt) (by simp) rfl)
        fun c c' _ hc ↦ (hsame rfl).kept hc.1.kept
    | @retry a f hattempt hf hattempts =>
      refine ⟨none, hnone, pays_of_touched hleased hattempt
        (evolve_setState_refresh (b := b.deleteLease lease.attemptToken) lease.inputKey hf.inputKey
          .waiting _) (fun c c' hc ↦ hc.kept) (pays_retried hf (hrunning hattempt) hattempts)
        fun c c' _ hc ↦ (hsame rfl).kept hc.1.kept⟩
    | @raise a f hattempt hf htier =>
      refine ⟨none, hnone, pays_of_touched hleased hattempt
        (evolve_setState_refresh (b := b.deleteLease lease.attemptToken) lease.inputKey hf.inputKey
          .waiting _) (fun c c' hc ↦ hc.kept) ?_ fun c c' _ hc ↦ (hsame rfl).kept hc.1.kept⟩
      refine pays_setState hf (hrunning hattempt) (by simp) rfl (by simp) (Or.inl ?_)
        fun c hc ↦ by cases hc
      simp [htier, ActionState.queued]
    | @unavailable a f hattempt hf =>
      refine ⟨none, hnone, pays_of_touched hleased hattempt
        (evolve_setState_refresh (b := b.deleteLease lease.attemptToken) lease.inputKey hf.inputKey
          .waiting _) (fun c c' hc ↦ hc.kept) ?_ fun c c' hne hc ↦ ?_⟩
      · refine pays_setState hf (hrunning hattempt) (by simp) ?_ le_rfl (Or.inl ?_)
          fun c hc ↦ by cases hc
        · rw [net_unavailable, if_pos hattempt.inputKey_eq]
        · simp [ActionState.queued]
      · refine Pays.kept (Pays.refl ?_ fun c hc ↦ by cases hc) hc.1.kept
        rw [net_unavailable, if_neg hne]
    | @block a f parent added hattempt hf hattempts hparent hadded =>
      have hblocked : ∀ c : ActionRow, c.inputKey ≠ lease.inputKey →
          ∀ key, some lease.inputKey = some key → c.inputKey ≠ key :=
        fun c hne key hkey ↦ Option.some.inj hkey ▸ hne
      refine ⟨some lease.inputKey, fun c hc ↦ ?_, pays_of_touched hleased hattempt
        (evolve_block (b := b.deleteLease lease.attemptToken) hf.inputKey hadded)
        (fun c c' hc ↦ hc.1) (pays_retried hf (hrunning hattempt) hattempts) fun c c' hne hc ↦ ?_⟩
      · exact Option.some.inj hc ▸ hleased.lease_key_mem _ (List.mem_map_of_mem hattempt.lease_mem)
      · rw [touched_iff] at hc
        by_cases hkey : c.inputKey = parent
        · exact pays_requeued rfl (fun _ ↦ Or.inr ⟨_, rfl⟩) (hblocked c hne) (hc.1 hkey)
        · exact (Pays.refl rfl (hblocked c hne)).kept (hc.2 hkey)
    | @failRun a f hattempt hf hclass =>
      refine ⟨none, hnone, ?_⟩
      rw [finishIfDone_actions]
      exact pays_of_touched hleased hattempt
        (evolve_setState (b := b.deleteLease lease.attemptToken) lease.inputKey hf.inputKey .failed)
        (fun _ _ hc ↦ Kept.of_eq hc) (pays_ended hf (hrunning hattempt) (fun h ↦ by cases h) rfl)
        fun c c' _ hc ↦ hsame hc
    | @failBuild a f failure hattempt hf | @resubmit a f failure hattempt hf =>
      exact ⟨none, hnone, pays_of_touched hleased hattempt
        (evolve_failBatch (b := b.deleteLease lease.attemptToken) lease.inputKey hf.inputKey _)
        (fun _ _ hc ↦ Kept.of_eq hc) (pays_ended hf (hrunning hattempt) (fun h ↦ by cases h) rfl)
        fun c c' _ hc ↦ pays_cancelled rfl hc⟩

/-! ### The bound -/

/-- No action was charged more than its allowance and what the other actions paid. -/
structure Bounded (limit : ℤ) (b : BatchRow) : Prop where
  settled_nonneg : ∀ a ∈ b.actions, 0 ≤ a.settled
  charge_le : ∀ a ∈ b.actions,
    a.charge ≤ limit + sumOthers ActionRow.inputKey (ActionRow.paid limit) a.inputKey b.actions

/-- Assumes: a positive limit, and rows that pay. The bound is kept. -/
theorem Bounded.of_pays (hlimit : 1 ≤ limit) (hb : b.Bounded limit)
    (hblocked : ∀ c, blocked = some c → c ∈ b.keys)
    (hrows : Evolve (Pays limit marks blocked) b.actions b'.actions) : b'.Bounded limit := by
  have hkey : ∀ a a', Pays limit marks blocked a a' → a'.inputKey = a.inputKey :=
    fun a a' ha ↦ ha.inputKey_eq
  have hpaid : ∀ a a', Pays limit marks blocked a a' → a.paid limit ≤ a'.paid limit :=
    fun a a' ha ↦ min_le_min_right _ ha.settled_le
  refine ⟨fun a' ha' ↦ ?_, fun a' ha' ↦ ?_⟩
  · obtain ⟨a, ha, hpays⟩ := hrows.exists_before ha'
    exact (hb.settled_nonneg a ha).trans hpays.settled_le
  · obtain ⟨a, ha, hpays⟩ := hrows.exists_before ha'
    have hcharge := hb.charge_le a ha
    have hothers := hrows.sumOthers_le hkey hpaid a.inputKey
    have hnonneg : 0 ≤ sumOthers ActionRow.inputKey (ActionRow.paid limit) a.inputKey b.actions := by
      refine sumOthers_nonneg (fun c hc ↦ ?_) _
      exact le_min (hb.settled_nonneg c hc) (by omega)
    rw [hpays.inputKey_eq]
    rcases hpays.charge_le with hle | hle | ⟨c, hc, hne, hle⟩
    · omega
    · omega
    · obtain ⟨payer, hpayer, rfl⟩ := List.mem_map.mp (hblocked c hc)
      have hgrows := hrows.sumOthers_lt hkey hpaid hpayer hne.symm fun payer' hpayer' ↦ by
        obtain ⟨hlt, hbelow⟩ := hpayer'.grows _ hc rfl
        unfold ActionRow.paid
        omega
      omega

/-- Assumes: a positive limit. The attempts of an action within the bound. -/
theorem Bounded.attempts_le (hlimit : 1 ≤ limit) (hb : b.Bounded limit) {a : ActionRow}
    (ha : a ∈ b.actions) :
    0 ≤ a.attempts ∧ a.attempts ≤ limit + 1 + (limit - 1) * (b.actions.length - 1) := by
  have hsettled := hb.settled_nonneg a ha
  have hcharge := hb.charge_le a ha
  have hothers : sumOthers ActionRow.inputKey (ActionRow.paid limit) a.inputKey b.actions ≤
      (limit - 1) * (b.actions.length - 1) :=
    sumOthers_le_of_forall (by omega) (fun c _ ↦ min_le_right _ _) (List.mem_map_of_mem ha)
  unfold ActionRow.settled at hsettled
  unfold ActionRow.charge at hcharge
  constructor
  · split at hsettled <;> omega
  · split_ifs at hcharge <;> omega

end BatchRow

/-! ### Every run -/

section Runs

variable {settings : Settings} {s : State} {observed : List (Uuid × Mark)}

/-- The attempts of a submitted batch are within the bound. -/
theorem Fresh.bounded {id : Uuid} {batch : Batch} {actionClass : ActionClass} {b : BatchRow}
    (hb : Fresh id batch actionClass b) (hlimit : 1 ≤ limit) : b.Bounded limit := by
  have hsettled : ∀ a ∈ b.actions, a.settled = 0 := by
    intro a ha
    simp [ActionRow.settled, hb.attempts a ha, hb.waiting a ha]
  refine ⟨fun a ha ↦ (hsettled a ha).ge, fun a ha ↦ ?_⟩
  have hnonneg : 0 ≤ sumOthers ActionRow.inputKey (ActionRow.paid limit) a.inputKey b.actions := by
    refine sumOthers_nonneg (fun c hc ↦ ?_) _
    exact le_min (hsettled c hc).ge (by omega)
  have hcharge : a.charge ≤ 1 := by
    simp only [ActionRow.charge, hb.attempts a ha]
    split_ifs <;> omega
  omega

/-- Assumes: a positive limit. In every reachable state the attempts are within the bound. -/
theorem bounded (hlimit : 1 ≤ settings.maxAttempts) (hs : (coordinator settings).Reachable s) :
    ∀ b ∈ s.db.batches, b.Bounded settings.maxAttempts := by
  refine invariant_of_leased (fun _ _ _ _ hfresh ↦ hfresh.bounded hlimit)
    (fun b marks b' hleased hb hchange ↦ ?_) hs
  obtain ⟨blocked, hblocked, hrows⟩ := BatchRow.pays_of_change hleased hchange
  exact hb.of_pays hlimit hblocked hrows

/-- What a run observed of the batches: it is of batches that were submitted and of their actions, and the
attempts are the net of it. -/
structure Tallied (observed : List (Uuid × Mark)) (s : State) : Prop where
  issued : ∀ o ∈ observed, o.1 ∈ s.issued
  keys : ∀ b ∈ s.db.batches, ∀ mark ∈ marksOf b.id observed, ∀ key,
    mark.claimedKey? = some key ∨ mark.unavailableKey? = some key → key ∈ b.keys
  attempts : ∀ b ∈ s.db.batches, ∀ a ∈ b.actions,
    a.attempts = net (marksOf b.id observed) a.inputKey

/-- What an event counts for is of a batch. -/
theorem mem_of_observe {e : Event} {o : Uuid × Mark} (ho : o ∈ observe settings s e) :
    ∃ b ∈ s.db.batches, b.id = o.1 := by
  cases e with
  | claim started tiers worker token locked =>
    simp only [observe] at ho
    split at ho
    · cases ho
    · rename_i b a hrow
      exact ⟨b, (claimRow_eq_some hrow).1, by rw [List.mem_singleton.mp ho]⟩
  | complete token result =>
    simp only [observe] at ho
    split at ho
    · cases ho
    · rename_i b hleased
      refine ⟨b, leased?_eq_some hleased, ?_⟩
      split at ho
      · split at ho
        · rw [List.mem_singleton.mp ho]
        · cases ho
      · cases ho
  | _ => cases ho

/-- The marks of a change name actions of the batch. -/
theorem Change.mem_keys {b b' : BatchRow} (hleased : b.Leased) (hchange : Change settings b marks b')
    {mark : Mark} (hmark : mark ∈ marks) {key : String}
    (hkey : mark.claimedKey? = some key ∨ mark.unavailableKey? = some key) : key ∈ b.keys := by
  cases hchange with
  | claim now token worker hrunning ha hready htoken =>
    rw [List.mem_singleton.mp hmark] at hkey
    rcases hkey with hkey | hkey
    · exact Option.some.inj hkey ▸ List.mem_map_of_mem ha
    · cases hkey
  | ends hends =>
    cases hends with
    | unavailable hattempt hf =>
      rw [List.mem_singleton.mp hmark] at hkey
      rcases hkey with hkey | hkey
      · cases hkey
      · exact Option.some.inj hkey ▸ hleased.lease_key_mem _ (List.mem_map_of_mem hattempt.lease_mem)
    | _ => cases hmark
  | _ => cases hmark

theorem marksOf_append (id : Uuid) (first second : List (Uuid × Mark)) :
    marksOf id (first ++ second) = marksOf id first ++ marksOf id second := by
  simp [marksOf]

/-- In every run the attempts are the net of what was observed. -/
theorem tallied (hrun : (coordinator settings).Run (observe settings) observed s) :
    Tallied observed s := by
  induction hrun with
  | initial => exact ⟨by simp, by simp [coordinator], by simp [coordinator]⟩
  | @step observed s s' e hrun hstep ih =>
    obtain ⟨hsound, hleased⟩ := leased hrun.reachable
    have hissued : ∀ o ∈ observed ++ observe settings s e, o.1 ∈ s'.issued := by
      intro o ho
      refine issued_subset hstep ?_
      rcases List.mem_append.mp ho with ho | ho
      · exact ih.issued o ho
      · obtain ⟨b, hb, hid⟩ := mem_of_observe ho
        exact hid ▸ hsound.ids_issued b hb
    rcases step_effect hsound (fun b hb ↦ (hleased b hb).leasesRun) hstep with
      ⟨change, hbatches, hbecomes⟩ | ⟨b', hbatches, hsubmits, hquiet⟩ | ⟨keep, hbatches, hquiet⟩
    · have hrows : ∀ b ∈ s.db.batches, ∃ blocked, Evolve
          (Pays settings.maxAttempts (marksOf b.id (observe settings s e)) blocked) b.actions
          (change b).actions := by
        intro b hb
        rcases hbecomes b hb with ⟨heq, hmarks⟩ | hchange
        · rw [heq, hmarks]
          exact ⟨none, evolve_refl (fun a ↦ Pays.refl rfl fun c hc ↦ by cases hc) _⟩
        · obtain ⟨blocked, -, hevolve⟩ := BatchRow.pays_of_change (hleased b hb) hchange
          exact ⟨blocked, hevolve⟩
      have hnew : ∀ b ∈ s.db.batches, ∀ mark ∈ marksOf b.id (observe settings s e), ∀ key,
          mark.claimedKey? = some key ∨ mark.unavailableKey? = some key → key ∈ b.keys := by
        intro b hb mark hmark key hkey
        rcases hbecomes b hb with ⟨-, hmarks⟩ | hchange
        · rw [hmarks] at hmark
          cases hmark
        · exact hchange.mem_keys (hleased b hb) hmark hkey
      have hid : ∀ b ∈ s.db.batches, (change b).id = b.id := fun b hb ↦ (hbecomes b hb).id
      refine ⟨hissued, fun b' hb' mark hmark key hkey ↦ ?_, fun b' hb' a' ha' ↦ ?_⟩ <;>
        rw [hbatches] at hb' <;> obtain ⟨b, hb, rfl⟩ := List.mem_map.mp hb' <;>
        obtain ⟨blocked, hevolve⟩ := hrows b hb
      · have hkeys : (change b).keys = b.keys := hevolve.map_eq fun _ _ h ↦ h.inputKey_eq
        rw [hid b hb, marksOf_append] at hmark
        rw [hkeys]
        rcases List.mem_append.mp hmark with hmark | hmark
        · exact ih.keys b hb mark hmark key hkey
        · exact hnew b hb mark hmark key hkey
      · obtain ⟨a, ha, hpays⟩ := hevolve.exists_before ha'
        rw [hpays.attempts_eq, hpays.inputKey_eq, ih.attempts b hb a ha, hid b hb, marksOf_append,
          net_append]
    · rw [hquiet, List.append_nil] at hissued ⊢
      obtain ⟨id, batch, profile, actionClass, high, -, hid, hnew⟩ := hsubmits
      have hfresh := fresh_of_submittedBatch hnew
      have hunmarked : marksOf b'.id observed = [] := by
        simp only [marksOf, List.map_eq_nil_iff, List.filter_eq_nil_iff, decide_eq_true_eq]
        exact fun o ho heq ↦ hid (hfresh.id_eq ▸ heq ▸ ih.issued o ho)
      refine ⟨hissued, fun b hb ↦ ?_, fun b hb ↦ ?_⟩ <;> rw [hbatches] at hb <;>
        rcases List.mem_append.mp hb with hb | hb
      · exact ih.keys b hb
      · rw [List.mem_singleton.mp hb, hunmarked]
        exact fun mark hmark ↦ by cases hmark
      · exact ih.attempts b hb
      · rw [List.mem_singleton.mp hb, hunmarked]
        exact fun a ha ↦ hfresh.attempts a ha
    · rw [hquiet, List.append_nil] at hissued ⊢
      have hkept : ∀ b ∈ s'.db.batches, b ∈ s.db.batches := by
        rw [hbatches]
        exact fun b hb ↦ (List.mem_filter.mp hb).1
      exact ⟨hissued, fun b hb ↦ ih.keys b (hkept b hb), fun b hb ↦ ih.attempts b (hkept b hb)⟩

/-- Assumes: distinct keys that hold every entry of a list. Their counts add up to its length. -/
theorem sum_count_eq_length {keys entries : List String} (hnodup : keys.Nodup)
    (hentries : ∀ k ∈ entries, k ∈ keys) : (keys.map entries.count).sum = entries.length := by
  rw [← List.sum_toFinset _ hnodup]
  have hsum := Multiset.sum_count_eq_card (s := keys.toFinset) (m := (entries : Multiset String))
    fun k hk ↦ List.mem_toFinset.mpr (hentries k hk)
  simpa using hsum

/-- Assumes: counts of each row that differ by at most a bound. So do their sums, times the rows. -/
theorem sum_le_sum_add {rows : List ActionRow} {first second : ActionRow → ℕ} {bound : ℤ}
    (hle : ∀ a ∈ rows, (first a : ℤ) ≤ second a + bound) :
    ((rows.map first).sum : ℤ) ≤ (rows.map second).sum + rows.length * bound := by
  induction rows with
  | nil => simp
  | cons a rest ih =>
    have hhead := hle a List.mem_cons_self
    have htail := ih fun c hc ↦ hle c (List.mem_cons_of_mem a hc)
    simp only [List.map_cons, List.sum_cons, List.length_cons, Nat.cast_add, Nat.cast_one]
    linarith

/-- Assumes: at least one attempt is allowed. In every run the attempts of each action of a batch of `n`
are within `0` and `M + 1 + (M - 1) * (n - 1)`, and are its claims less its unavailable results. So the
claims of the whole batch are bounded by its unavailable results and that many for each action. -/
theorem attempts_bounded (hlimit : 1 ≤ settings.maxAttempts)
    (hrun : (coordinator settings).Run (observe settings) observed s) {b : BatchRow}
    (hb : b ∈ s.db.batches) :
    (∀ a ∈ b.actions, 0 ≤ a.attempts ∧
      a.attempts ≤ settings.maxAttempts + 1 + (settings.maxAttempts - 1) * (b.actions.length - 1) ∧
      a.attempts = (((marksOf b.id observed).filterMap Mark.claimedKey?).count a.inputKey : ℤ) -
        ((marksOf b.id observed).filterMap Mark.unavailableKey?).count a.inputKey) ∧
    (((marksOf b.id observed).filterMap Mark.claimedKey?).length : ℤ) ≤
      ((marksOf b.id observed).filterMap Mark.unavailableKey?).length +
        b.actions.length *
          (settings.maxAttempts + 1 + (settings.maxAttempts - 1) * (b.actions.length - 1)) := by
  have hs := hrun.reachable
  have htallied := tallied hrun
  have hactions : ∀ a ∈ b.actions, 0 ≤ a.attempts ∧
      a.attempts ≤ settings.maxAttempts + 1 + (settings.maxAttempts - 1) * (b.actions.length - 1) ∧
      a.attempts = net (marksOf b.id observed) a.inputKey := by
    intro a ha
    obtain ⟨hnonneg, hle⟩ := (bounded hlimit hs b hb).attempts_le hlimit ha
    exact ⟨hnonneg, hle, htallied.attempts b hb a ha⟩
  refine ⟨hactions, ?_⟩
  have hkeys := htallied.keys b hb
  have hnodup := ((leased hs).2 b hb).keys_nodup
  set claimed := (marksOf b.id observed).filterMap Mark.claimedKey? with hclaimed
  set unavailable := (marksOf b.id observed).filterMap Mark.unavailableKey? with hunavailable
  have hclaims : (b.keys.map claimed.count).sum = claimed.length := by
    refine sum_count_eq_length hnodup fun key hkey ↦ ?_
    obtain ⟨mark, hmark, heq⟩ := List.mem_filterMap.mp hkey
    exact hkeys mark hmark key (Or.inl heq)
  have hunavailables : (b.keys.map unavailable.count).sum = unavailable.length := by
    refine sum_count_eq_length hnodup fun key hkey ↦ ?_
    obtain ⟨mark, hmark, heq⟩ := List.mem_filterMap.mp hkey
    exact hkeys mark hmark key (Or.inr heq)
  rw [← hclaims, ← hunavailables, BatchRow.keys, List.map_map, List.map_map]
  refine sum_le_sum_add fun a ha ↦ ?_
  obtain ⟨-, hle, hnet⟩ := hactions a ha
  rw [net, ← hclaimed, ← hunavailable] at hnet
  simp only [Function.comp_apply]
  omega

end Runs

theorem attempts_bounded_sampleState : sampleState.db.batches ≠ [] ∧
    ∀ b ∈ sampleState.db.batches, ∀ a ∈ b.actions,
      0 ≤ a.attempts ∧ a.attempts ≤ 3 + 1 + (3 - 1) * (b.actions.length - 1) := by
  have hrun : (coordinator {}).Run (observe {}) _ sampleState :=
    Machine.Run.initial.log (Option.some_get sampleRun_isSome).symm
  refine ⟨by decide, fun b hb a ha ↦ ?_⟩
  obtain ⟨hnonneg, hle, -⟩ := (attempts_bounded (by decide) hrun hb).1 a ha
  exact ⟨hnonneg, hle⟩

end Holbuild.RemoteExec
