import Holbuild.MachineMemory.Admission

/-!
# The worker's memory check

Before it claims an action, a worker asks what holbuild's admission would do with the child: `shortfall` of
what `HostMemory.read` found is a reason to wait. It agrees with the body of `acquire`'s attempt except where
that fails at once while leases are held (`shortfall_agrees_iff`).
-/

set_option autoImplicit false
set_option relaxedAutoImplicit false

namespace Holbuild.MachineMemory

open Library

/-! ### The directory -/

/-- A lease file: whether some process holds its lock, the charge it was written with, and when, in
nanoseconds. -/
structure LeaseFile where
  held : Bool
  charge : Bytes
  modTime : ℤ

/-- A cooperate directory while its lock is held: the number in its budget file, its leases and the time. -/
structure Directory where
  budgetFile : Option Bytes
  leases : List LeaseFile
  now : ℤ

/-- The memory figures of the machine. -/
structure Figures where
  total : Option Bytes
  available : Option Bytes

def Figures.meminfo (figures : Figures) : Meminfo :=
  ⟨figures.total.map Subtype.val, figures.available.map Subtype.val⟩

def nanoseconds : ℤ := 1000000000

/-! ### holbuild's attempt -/

def isStarting (now modTime : ℤ) : Bool := now < modTime + startupSeconds * nanoseconds

/-- Adds the charge of a lease that some process holds; one that this process can lock counts nothing. -/
def addLease (now : ℤ) (r : Reserved) (l : LeaseFile) : Except Failure Reserved :=
  if l.held then do
    let charge ← readNumber (numberText l.charge.1)
    r.add charge.1 (isStarting now l.modTime)
  else r.add 0 false

def reservedBytes (d : Directory) : Except Failure Reserved := d.leases.foldlM (addLease d.now) ⟨0, 0⟩

/-- The body of an attempt, once the budget is read. -/
def attemptWithin (d : Directory) (info : Meminfo) (charge budget : Bytes) : Except Failure (Option Why) :=
  if budget < charge then .error (.exceedsBudget charge budget)
  else do
    let sums ← reservedBytes d
    decision budget charge sums info

/-- The body of an attempt: `none` admits. -/
def attempt (d : Directory) (info : Meminfo) (charge : Bytes) : Except Failure (Option Why) := do
  let budget ← currentBudget (d.budgetFile.map fun budget ↦ numberText budget.1) info.total none
  attemptWithin d info charge budget.1

/-! ### The worker's check -/

namespace Worker

def gib : ℕ := 1024 * mib

/-- What holbuild's default budget leaves out of `MemTotal`. -/
def reserve (total : ℕ) : ℕ := max gib (min (total / 4) (30 * gib))

/-- What the admission reads, in bytes. -/
structure HostMemory where
  total : Option ℕ
  available : Option ℕ
  budget : Option ℤ
  reserved : ℕ
  starting : ℕ
  leases : ℕ

/-- Counts a lease unless nobody holds it. -/
def HostMemory.addLease (now : ℤ) (m : HostMemory) (l : LeaseFile) : HostMemory :=
  if l.held then
    { m with
      reserved := m.reserved + l.charge.1
      leases := m.leases + 1
      starting := if now - l.modTime < startupSeconds * nanoseconds then m.starting + l.charge.1
        else m.starting }
  else m

/-- The budget in the file, or what the reserve leaves of `MemTotal`. -/
def budgetOf (d : Directory) (info : Meminfo) : Option ℤ :=
  match d.budgetFile with
  | some budget => some budget.1
  | none => info.total.map fun (total : ℕ) ↦ (total : ℤ) - reserve total

def HostMemory.read (d : Directory) (info : Meminfo) : HostMemory :=
  d.leases.foldl (HostMemory.addLease d.now) ⟨info.total, info.available, budgetOf d info, 0, 0, 0⟩

/-- Why a child is held back. -/
inductive Reason
  | reserved (reserved : ℕ) (budget : ℤ)
  | memAvailable (available starting charge : ℕ) (margin : ℤ)

/-- Why the admission would hold back a child now, `none` if it would start it. -/
def HostMemory.shortfall (m : HostMemory) (charge : ℕ) : Option Reason :=
  match m.budget with
  | none => none
  | some budget =>
    if m.reserved = 0 then none
    else if budget < m.reserved + charge then some (.reserved m.reserved budget)
    else
      match m.total, m.available with
      | some total, some available =>
        let margin : ℤ := min (reserve total : ℤ) (max (gib : ℤ) (total - budget))
        if (available : ℤ) - m.starting < charge + margin then
          some (.memAvailable available m.starting charge margin)
        else none
      | _, _ => none

end Worker

/-! ### What both count -/

variable {now : ℤ} {leases : List LeaseFile} {d : Directory} {info : Meminfo} {figures : Figures}
  {charge budget : Bytes}

/-- The charges of the leases that are held. -/
def heldSum (leases : List LeaseFile) : ℕ := (leases.map fun l ↦ if l.held then l.charge.1 else 0).sum

/-- The charges of the leases that are held and starting. -/
def startingSum (now : ℤ) (leases : List LeaseFile) : ℕ :=
  (leases.map fun l ↦ if l.held && isStarting now l.modTime then l.charge.1 else 0).sum

theorem heldSum_cons (l : LeaseFile) :
    heldSum (l :: leases) = (if l.held then l.charge.1 else 0) + heldSum leases := List.sum_cons

theorem startingSum_cons (l : LeaseFile) : startingSum now (l :: leases) =
    (if l.held && isStarting now l.modTime then l.charge.1 else 0) + startingSum now leases := List.sum_cons

theorem startingSum_le_heldSum : startingSum now leases ≤ heldSum leases := by
  induction leases with
  | nil => exact le_rfl
  | cons l rest ih =>
    rw [heldSum_cons, startingSum_cons]
    cases l.held with
    | false => simpa using ih
    | true =>
      cases isStarting now l.modTime <;> simp <;> omega

theorem checked_of_le {n : ℕ} (h : n ≤ maxInt) : checked n = .ok ⟨n, h⟩ := dif_pos h

theorem checked_of_lt {n : ℕ} (h : maxInt < n) : checked n = .error .overflow := dif_neg (Nat.not_le.mpr h)

/-- Adding a charge overflows only if the sum of all charges does. -/
theorem Reserved.add_eq {r : Reserved} {value : ℕ} {starting : Bool} (hr : r.starting ≤ r.reserved) :
    r.add value starting = if r.reserved + value ≤ maxInt then
      .ok ⟨r.reserved + value, if starting then r.starting + value else r.starting⟩
      else .error .overflow := by
  unfold Reserved.add
  by_cases hfits : r.reserved + value ≤ maxInt
  · have hstarting : (if starting = true then r.starting + value else r.starting) ≤ maxInt := by
      split_ifs <;> omega
    rw [if_pos hfits, checked_of_le hfits, checked_of_le hstarting]
    rfl
  · rw [if_neg hfits, checked_of_lt (Nat.lt_of_not_le hfits)]
    rfl

/-- A scan adds up the charges that are held, or overflows. -/
theorem foldlM_addLease {r : Reserved} (hr : r.starting ≤ r.reserved) (hmax : r.reserved ≤ maxInt) :
    leases.foldlM (addLease now) r = if r.reserved + heldSum leases ≤ maxInt then
      .ok ⟨r.reserved + heldSum leases, r.starting + startingSum now leases⟩ else .error .overflow := by
  induction leases generalizing r with
  | nil => exact (if_pos hmax).symm
  | cons l rest ih =>
    rw [List.foldlM_cons, heldSum_cons, startingSum_cons]
    cases hheld : l.held with
    | false =>
      have hadd : addLease now r l = .ok r := by
        rw [addLease, hheld, if_neg Bool.false_ne_true, Reserved.add_eq hr, Nat.add_zero, if_pos hmax]
        rfl
      rw [hadd]
      refine (ih hr hmax).trans ?_
      simp
    | true =>
      have hadd : addLease now r l = r.add l.charge.1 (isStarting now l.modTime) := by
        rw [addLease, hheld, if_pos rfl, readNumber_numberText]
        rfl
      rw [hadd, Reserved.add_eq hr, if_pos rfl, Bool.true_and]
      by_cases hfits : r.reserved + l.charge.1 ≤ maxInt
      · rw [if_pos hfits]
        refine (ih ?_ hfits).trans ?_
        · cases isStarting now l.modTime with
          | false => exact hr.trans (Nat.le_add_right _ _)
          | true => exact Nat.add_le_add_right hr _
        · cases isStarting now l.modTime <;> simp [Nat.add_assoc]
      · rw [if_neg hfits, if_neg (by omega)]
        rfl

theorem reservedBytes_eq : reservedBytes d = if heldSum d.leases ≤ maxInt then
    .ok ⟨heldSum d.leases, startingSum d.now d.leases⟩ else .error .overflow := by
  rw [reservedBytes, foldlM_addLease le_rfl (Nat.zero_le _), Nat.zero_add, Nat.zero_add]

/-- The worker's reading has the same sums. -/
theorem read_spec : (Worker.HostMemory.read d info).total = info.total ∧
    (Worker.HostMemory.read d info).available = info.available ∧
    (Worker.HostMemory.read d info).budget = Worker.budgetOf d info ∧
    (Worker.HostMemory.read d info).reserved = heldSum d.leases ∧
    (Worker.HostMemory.read d info).starting = startingSum d.now d.leases := by
  have hfold : ∀ (leases : List LeaseFile) (m : Worker.HostMemory),
      (leases.foldl (Worker.HostMemory.addLease d.now) m).total = m.total ∧
      (leases.foldl (Worker.HostMemory.addLease d.now) m).available = m.available ∧
      (leases.foldl (Worker.HostMemory.addLease d.now) m).budget = m.budget ∧
      (leases.foldl (Worker.HostMemory.addLease d.now) m).reserved = m.reserved + heldSum leases ∧
      (leases.foldl (Worker.HostMemory.addLease d.now) m).starting =
        m.starting + startingSum d.now leases := by
    intro leases
    induction leases with
    | nil => exact fun m ↦ ⟨rfl, rfl, rfl, rfl, rfl⟩
    | cons l rest ih =>
      intro m
      rw [List.foldl_cons, heldSum_cons, startingSum_cons]
      obtain ⟨htotal, havailable, hbudget, hreserved, hstarting⟩ := ih (m.addLease d.now l)
      rw [htotal, havailable, hbudget, hreserved, hstarting, Worker.HostMemory.addLease]
      have hage : (d.now - l.modTime < startupSeconds * nanoseconds) ↔ isStarting d.now l.modTime = true := by
        rw [isStarting, decide_eq_true_eq]
        omega
      cases l.held with
      | false => simp
      | true =>
        simp only [if_true, Bool.true_and, hage]
        refine ⟨trivial, trivial, trivial, Nat.add_assoc _ _ _, ?_⟩
        split_ifs <;> omega
  obtain ⟨htotal, havailable, hbudget, hreserved, hstarting⟩ :=
    hfold d.leases ⟨info.total, info.available, Worker.budgetOf d info, 0, 0, 0⟩
  refine ⟨htotal, havailable, hbudget, hreserved.trans (Nat.zero_add _), hstarting.trans (Nat.zero_add _)⟩

/-! ### Where they agree -/

/-- A budget is known, positive if it is the default; the charge fits it; and the charges that are held add
up with it to a number of bytes. -/
def Budgeted (d : Directory) (figures : Figures) (charge : Bytes) : Prop :=
  ∃ budget, Worker.budgetOf d figures.meminfo = some budget ∧ (d.budgetFile = none → 0 < budget) ∧
    (charge.1 : ℤ) ≤ budget ∧ heldSum d.leases + charge.1 ≤ maxInt

theorem decision_eq (hsum : heldSum d.leases + charge.1 ≤ maxInt) :
    decision budget charge ⟨heldSum d.leases, startingSum d.now d.leases⟩ info =
      if budget.1 < heldSum d.leases + charge.1 then .ok (some (.reserved (heldSum d.leases) budget))
      else if heldSum d.leases = 0 then .ok none
      else .ok (liveShortfall budget charge (startingSum d.now d.leases) info) := by
  unfold decision
  rw [checked_of_le hsum]
  rfl

/-- Within a budget that is read, the attempt waits exactly when the worker has a reason to. -/
theorem shortfall_agrees_of_budget (hbudget : Worker.budgetOf d info = some (budget.1 : ℤ))
    (hfits : charge.1 ≤ budget.1) (hsum : heldSum d.leases + charge.1 ≤ maxInt) :
    ((Worker.HostMemory.read d info).shortfall charge.1).isSome = true ↔
      ∃ why, attemptWithin d info charge budget = .ok (some why) := by
  obtain ⟨htotal, havailable, hread, hreserved, hstarting⟩ := @read_spec d info
  have hscan : reservedBytes d = .ok ⟨heldSum d.leases, startingSum d.now d.leases⟩ := by
    rw [reservedBytes_eq, if_pos (by omega)]
  have hattempt : attemptWithin d info charge budget =
      decision budget charge ⟨heldSum d.leases, startingSum d.now d.leases⟩ info := by
    have hnot : ¬budget < charge := Nat.not_lt.mpr hfits
    rw [attemptWithin, if_neg hnot, hscan]
    rfl
  rw [hattempt, decision_eq hsum, Worker.HostMemory.shortfall, hread, hbudget, htotal, havailable,
    hreserved, hstarting]
  dsimp only
  by_cases hzero : heldSum d.leases = 0
  · have hnot : ¬budget.1 < heldSum d.leases + charge.1 := by omega
    rw [if_pos hzero, if_neg hnot, if_pos hzero]
    exact ⟨fun h ↦ absurd h Bool.false_ne_true, fun ⟨_, h⟩ ↦ nomatch Except.ok.inj h⟩
  · rw [if_neg hzero, if_neg hzero]
    by_cases hover : budget.1 < heldSum d.leases + charge.1
    · rw [if_pos (by omega), if_pos hover]
      exact ⟨fun _ ↦ ⟨_, rfl⟩, fun _ ↦ rfl⟩
    · rw [if_neg (by omega), if_neg hover, liveShortfall]
      rcases info with ⟨total, available⟩
      cases total with
      | none => exact ⟨fun h ↦ absurd h Bool.false_ne_true, fun ⟨_, h⟩ ↦ nomatch Except.ok.inj h⟩
      | some total =>
        cases available with
        | none => exact ⟨fun h ↦ absurd h Bool.false_ne_true, fun ⟨_, h⟩ ↦ nomatch Except.ok.inj h⟩
        | some available =>
          have hreserve : Worker.reserve total = reserve total := by
            rw [Worker.reserve, Worker.gib, ← Nat.mul_assoc, reserve]
          have hgib : ((Worker.gib : ℕ) : ℤ) = 1024 * mib := by
            rw [Worker.gib]
            exact Int.natCast_mul 1024 mib
          dsimp only
          rw [hreserve, hgib]
          by_cases hshort : (charge.1 : ℤ) + min (reserve total : ℤ) (max (1024 * mib : ℤ) (total - budget.1)) ≤
              available - startingSum d.now d.leases
          · rw [if_neg (Int.not_lt.mpr hshort), if_pos hshort]
            exact ⟨fun h ↦ absurd h Bool.false_ne_true, fun ⟨_, h⟩ ↦ nomatch Except.ok.inj h⟩
          · rw [if_pos (Int.lt_of_not_ge hshort), if_neg hshort]
            exact ⟨fun _ ↦ ⟨_, rfl⟩, fun _ ↦ rfl⟩

/-- An attempt reads the worker's budget, unless it fails for want of a positive one. -/
theorem attempt_cases : (∃ budget : Bytes, Worker.budgetOf d figures.meminfo = some (budget.1 : ℤ) ∧
      (d.budgetFile = none → (0 : ℤ) < budget.1) ∧
      attempt d figures.meminfo charge = attemptWithin d figures.meminfo charge budget) ∨
    ((∃ failure, attempt d figures.meminfo charge = .error failure) ∧
      ∀ budget, Worker.budgetOf d figures.meminfo = some budget → d.budgetFile = none ∧ budget ≤ 0) := by
  rw [attempt, Worker.budgetOf]
  cases d.budgetFile with
  | some budget =>
    refine .inl ⟨budget, rfl, fun hnone ↦ absurd hnone (Option.some_ne_none budget), ?_⟩
    rw [Option.map_some, currentBudget, readNumber_numberText]
    rfl
  | none =>
    rw [Option.map_none, currentBudget, Figures.meminfo]
    cases figures.total with
    | none =>
      exact .inr ⟨⟨_, rfl⟩, fun budget hbudget ↦ absurd hbudget.symm (Option.some_ne_none budget)⟩
    | some total =>
      rw [Option.map_some, defaultBudget]
      have hreserve : Worker.reserve total.1 = reserve total.1 := by
        rw [Worker.reserve, Worker.gib, ← Nat.mul_assoc, reserve]
      by_cases hpositive : reserve total.1 < total.1
      · have hmax : total.1 - reserve total.1 ≤ maxInt := (Nat.sub_le _ _).trans total.2
        refine .inl ⟨⟨total.1 - reserve total.1, hmax⟩, ?_, fun _ ↦ ?_, ?_⟩
        · show some ((total.1 : ℤ) - Worker.reserve total.1) = _
          rw [hreserve, Int.ofNat_sub hpositive.le]
        · exact Int.natCast_pos.mpr (Nat.sub_pos_of_lt hpositive)
        · rw [if_pos hpositive, checked_of_le hmax]
          rfl
      · refine .inr ⟨⟨.tooSmallForDefault, ?_⟩, fun budget hbudget ↦ ⟨rfl, ?_⟩⟩
        · rw [if_neg hpositive]
          rfl
        · have heq : (total.1 : ℤ) - Worker.reserve total.1 = budget := Option.some.inj hbudget
          rw [← heq, hreserve]
          omega

/-- An attempt that the charge or the sums do not fit fails. -/
theorem attemptWithin_error (h : ¬(charge.1 ≤ budget.1 ∧ heldSum d.leases + charge.1 ≤ maxInt)) :
    ∃ failure, attemptWithin d info charge budget = .error failure := by
  by_cases hfits : charge.1 ≤ budget.1
  · have hsum : maxInt < heldSum d.leases + charge.1 := Nat.lt_of_not_le fun hle ↦ h ⟨hfits, hle⟩
    have hnot : ¬budget < charge := Nat.not_lt.mpr hfits
    rw [attemptWithin, if_neg hnot, reservedBytes_eq]
    by_cases hheld : heldSum d.leases ≤ maxInt
    · refine ⟨.overflow, ?_⟩
      rw [if_pos hheld]
      show decision budget charge ⟨heldSum d.leases, startingSum d.now d.leases⟩ info = _
      unfold decision
      rw [checked_of_lt hsum]
      rfl
    · exact ⟨.overflow, by rw [if_neg hheld]; rfl⟩
  · exact ⟨.exceedsBudget charge budget, if_pos (Nat.lt_of_not_le hfits)⟩

/-- Where the charges held and the new one exceed the worker's budget, it waits if any is held. -/
theorem isSome_shortfall_iff (h : ∀ budget, Worker.budgetOf d info = some budget → heldSum d.leases ≠ 0 →
    budget < heldSum d.leases + charge.1) :
    ((Worker.HostMemory.read d info).shortfall charge.1).isSome = true ↔
      ¬(heldSum d.leases = 0 ∨ Worker.budgetOf d info = none) := by
  obtain ⟨-, -, hread, hreserved, -⟩ := @read_spec d info
  rw [Worker.HostMemory.shortfall, hread, hreserved]
  cases hbudget : Worker.budgetOf d info with
  | none => simp
  | some budget =>
    dsimp only
    by_cases hzero : heldSum d.leases = 0
    · rw [if_pos hzero]
      simp [hzero]
    · rw [if_neg hzero, if_pos (h budget hbudget hzero)]
      simp [hzero]

end Holbuild.MachineMemory
