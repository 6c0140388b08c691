import Holbuild.Library.Machine
import Holbuild.Library.Texts
import Mathlib.Data.Int.Basic
import Mathlib.Logic.Function.Basic

/-!
# Machine memory admission

Processes that share a cooperate directory start a child only while the charges of all running
children fit a budget. `State` is what they share: the lock of the directory, its budget file and its
lease files, each with the number of processes that have the descriptor its lock is on. `step` runs
one process to its next access of that state, so the body of `acquire` is interleaved with every
other process, with children that end, with processes that are killed and with an operator who
replaces the budget.

A system call that fails raises (`Event.raise`). `flock` never waits here, so it is never
interrupted: it takes the lock or another descriptor has it.
-/

set_option autoImplicit false
set_option relaxedAutoImplicit false

namespace Holbuild.MachineMemory

open Library

/-! ### Numbers and files -/

/-- A process, or one of its threads: `flock` tells their descriptors apart. -/
abbrev Pid := ℕ

/-- A time in whole seconds. -/
abbrev Time := ℕ

/-- The largest `int`. -/
def maxInt : ℕ := 2 ^ 62 - 1

/-- A number of bytes an `int` holds. -/
abbrev Bytes := {n : ℕ // n ≤ maxInt}

/-- What an attempt raises. -/
inductive Failure
  | overflow
  | notANumber (text : Text)
  | budgetConflict (budgetMb : ℕ) (budget : Bytes)
  | exceedsBudget (charge budget : Bytes)
  | tooSmallForDefault
  | noMemTotal
  | stopped
  | lockTimeout
  | system
  deriving DecidableEq

/-- An `int` result, or the overflow it raises. -/
def checked (n : ℕ) : Except Failure Bytes := if h : n ≤ maxInt then .ok ⟨n, h⟩ else .error .overflow

def mib : ℕ := 1024 * 1024

/-- How long a new child counts against `MemAvailable` by its charge. -/
def startupSeconds : ℕ := 30

/-- The characters that separate the tokens of a number file. -/
def isSpace (c : Char) : Bool := c = ' ' ∨ (9 ≤ c.toNat ∧ c.toNat ≤ 13)

/-- The decimal byte count a file of one number holds; only its first 64 bytes are read. -/
def readNumber (text : Text) : Except Failure Bytes :=
  match tokens isSpace (text.take 64) with
  | [n] =>
    match readDecimal n with
    | some value => checked value
    | none => .error (.notANumber (text.take 64))
  | _ => .error (.notANumber (text.take 64))

/-- What a number file is written with. -/
def numberText (n : ℕ) : Text := decimal n ++ ['\n']

/-- A lease file. `holders` counts the processes that have the descriptor its lock is on. -/
structure Lease where
  name : Text
  text : Text
  modTime : Time
  holders : ℕ
  deriving DecidableEq

/-- Some process holds the lock of the lease. -/
def Lease.Held (l : Lease) : Prop := 0 < l.holders

instance (l : Lease) : Decidable l.Held := inferInstanceAs (Decidable (0 < l.holders))

/-- The number the lease file holds, zero where it cannot be read. -/
def Lease.charge (l : Lease) : ℕ := (readNumber l.text).toOption.elim 0 Subtype.val

/-! ### The budget -/

/-- `MemTotal` and `MemAvailable` in bytes, where they can be read. -/
structure Meminfo where
  total : Option ℕ
  available : Option ℕ
  deriving DecidableEq

/-- A quarter of `MemTotal`, at least 1 GiB and at most 30 GiB. -/
def reserve (total : ℕ) : ℕ := max (1024 * mib) (min (total / 4) (30 * 1024 * mib))

def defaultBudget (memTotal : Option ℕ) : Except Failure Bytes :=
  match memTotal with
  | some total => if reserve total < total then checked (total - reserve total)
    else .error .tooSmallForDefault
  | none => .error .noMemTotal

/-- What a process was configured with. -/
structure Settings where
  budgetMb : Option ℕ
  chargeMb : ℕ
  deriving DecidableEq

/-- The budget in force and the budget file afterwards. -/
def currentBudget (budgetFile : Option Text) (memTotal : Option ℕ) (budgetMb : Option ℕ) :
    Except Failure (Bytes × Option Text) :=
  match budgetFile with
  | some text => do
    let budget ← readNumber text
    match budgetMb with
    | some mb =>
      let wanted ← checked (mib * mb)
      if wanted = budget then .ok (budget, budgetFile) else .error (.budgetConflict mb budget)
    | none => .ok (budget, budgetFile)
  | none =>
    match budgetMb with
    | none => do
      let budget ← defaultBudget memTotal
      .ok (budget, none)
    | some mb => do
      let budget ← checked (mib * mb)
      .ok (budget, some (numberText budget))

/-! ### One attempt -/

/-- The charges a scan has added up, and the part of them whose children are still starting. -/
structure Reserved where
  reserved : ℕ
  starting : ℕ
  deriving DecidableEq

/-- Adds the charge of one lease. -/
def Reserved.add (r : Reserved) (charge : ℕ) (starting : Bool) : Except Failure Reserved := do
  let reserved ← checked (r.reserved + charge)
  let startingSum ← checked (if starting then r.starting + charge else r.starting)
  .ok ⟨reserved, startingSum⟩

/-- Why an attempt has to wait. -/
inductive Why
  | reserved (reserved : ℕ) (budget : Bytes)
  | memAvailable (available starting : ℕ) (margin : ℤ)
  deriving DecidableEq

/-- Whether `MemAvailable`, less what children still starting will take, covers the charge and a
margin. -/
def liveShortfall (budget charge : Bytes) (starting : ℕ) (info : Meminfo) : Option Why :=
  match info.total, info.available with
  | some total, some available =>
    let margin : ℤ := min (reserve total : ℤ) (max (1024 * mib : ℤ) (total - budget.1))
    if charge.1 + margin ≤ (available : ℤ) - starting then none
    else some (.memAvailable available starting margin)
  | _, _ => none

/-- What a finished scan leads to: `none` admits. -/
def decision (budget charge : Bytes) (r : Reserved) (info : Meminfo) :
    Except Failure (Option Why) := do
  let sum ← checked (r.reserved + charge)
  if budget.1 < sum.1 then .ok (some (.reserved r.reserved budget))
  else if r.reserved = 0 then .ok none
  else .ok (liveShortfall budget charge r.starting info)

/-- What a scan carries: the lease names it has still to look at, the sums so far and, for no other
purpose than to be spoken of, the names it has counted with their charges. -/
structure Scan where
  names : List Text
  sums : Reserved
  counted : List (Text × ℕ)
  deriving DecidableEq

/-- Where a process is in `acquire`. From `locked` to `written` it has the lock of the directory. -/
inductive Phase
  | idle
  | waiting (settings : Settings) (charge : Bytes)
  | locked (settings : Settings) (charge : Bytes)
  | listing (budget charge : Bytes)
  | scanning (budget charge : Bytes) (scan : Scan)
  | opened (budget charge : Bytes) (name : Text) (scan : Scan)
  | stale (budget charge : Bytes) (name : Text) (scan : Scan)
  | refused (budget charge : Bytes) (name : Text) (scan : Scan)
  | creating (budget charge : Bytes)
  | created (budget charge : Bytes) (name : Text)
  | written (budget charge : Bytes) (name : Text)
  | admitted (name : Text)
  | wait (why : Why)
  | failed (failure : Failure)
  | resizing
  deriving DecidableEq

/-- The process has the lock of the directory. -/
def Phase.underLock : Phase → Bool
  | .locked .. | .listing .. | .scanning .. | .opened .. | .stale .. | .refused .. | .creating ..
  | .created .. | .written .. | .resizing => true
  | _ => false

/-- The process is in no attempt. -/
def Phase.resting : Phase → Bool
  | .idle | .admitted _ | .wait _ | .failed _ => true
  | _ => false

/-- What the processes share, and where each of them is. `settings` and `attempt` are those of a
process: what it is configured with, and what its `acquire` was called with. -/
structure State where
  lock : Option Pid
  phase : Pid → Phase
  settings : Pid → Option Settings
  attempt : Pid → Option Settings
  budgetFile : Option Text
  leases : List Lease
  now : Time

/-- One access to the shared state by a process, or one event outside `acquire`. -/
inductive Event
  /-- A process is configured. -/
  | configure (p : Pid) (settings : Settings)
  /-- A process calls `acquire`, or tries again after a wait. -/
  | acquire (p : Pid)
  | retry (p : Pid)
  /-- A process polls the lock of the directory, or gives up waiting for it. -/
  | tryLock (p : Pid)
  | giveUp (p : Pid) (failure : Failure)
  /-- The steps of the body of an attempt. -/
  | readBudget (p : Pid) (info : Meminfo)
  | list (p : Pid) (names : List Text)
  | openLease (p : Pid)
  | tryLease (p : Pid)
  | removeLease (p : Pid) (permitted : Bool)
  | readLease (p : Pid)
  | decide (p : Pid) (info : Meminfo)
  | createLease (p : Pid) (name : Text)
  | writeLease (p : Pid)
  | lockLease (p : Pid)
  /-- A system call fails, and the handlers run. -/
  | raise (p : Pid)
  /-- A process is killed: the kernel closes its descriptors. -/
  | kill (p : Pid)
  /-- A child inherits the descriptor of a lease, or a process that has it closes it or ends. -/
  | inherit (name : Text)
  | close (name : Text)
  /-- An operator replaces the budget file under the lock. -/
  | resize (p : Pid)
  | replaceBudget (p : Pid) (text : Text)
  | unlock (p : Pid)
  | tick
  deriving DecidableEq

namespace State

/-- The process moves on. -/
def goto (s : State) (p : Pid) (phase : Phase) : State :=
  { s with phase := Function.update s.phase p phase }

/-- The process moves on and closes its descriptor of the lock. -/
def finish (s : State) (p : Pid) (phase : Phase) : State :=
  { s with lock := none, phase := Function.update s.phase p phase }

/-- The lease file of a name. -/
def lease? (s : State) (name : Text) : Option Lease := s.leases.find? fun l ↦ l.name = name

/-- Changes the lease file of a name. -/
def setLease (s : State) (name : Text) (change : Lease → Lease) : State :=
  { s with leases := s.leases.map fun l ↦ if l.name = name then change l else l }

/-- Removes the lease file of a name. -/
def removeFile (s : State) (name : Text) : State :=
  { s with leases := s.leases.filter fun l ↦ l.name ≠ name }

end State

/-- The start of an attempt: the charge is computed before the lock of the directory is opened. -/
def begin (s : State) (p : Pid) (settings : Settings) : State :=
  match checked (mib * settings.chargeMb) with
  | .ok charge => s.goto p (.waiting settings charge)
  | .error failure => s.goto p (.failed failure)

/-- One access to the shared state, `none` where the process is not at that step. -/
def step (s : State) : Event → Option State
  | .configure p settings => some { s with settings := Function.update s.settings p (some settings) }
  | .acquire p =>
    match s.settings p with
    | some settings =>
      if (s.phase p).resting then
        some (begin { s with attempt := Function.update s.attempt p (some settings) } p settings)
      else none
    | none => none
  | .retry p =>
    match s.phase p, s.attempt p with
    | .wait _, some settings => some (begin s p settings)
    | _, _ => none
  | .tryLock p =>
    match s.phase p with
    | .waiting settings charge =>
      if s.lock = none then some { s.goto p (.locked settings charge) with lock := some p }
      else some s
    | _ => none
  | .giveUp p failure =>
    match s.phase p with
    | .waiting _ _ => some (s.goto p (.failed failure))
    | _ => none
  | .readBudget p info =>
    match s.phase p with
    | .locked settings charge =>
      match currentBudget s.budgetFile info.total settings.budgetMb with
      | .ok (budget, file) =>
        -- a later resize must not fail this process
        let s' := { s with
          budgetFile := file
          settings := Function.update s.settings p (some { settings with budgetMb := none }) }
        if budget < charge then some (s'.finish p (.failed (.exceedsBudget charge budget)))
        else some (s'.goto p (.listing budget charge))
      | .error failure => some (s.finish p (.failed failure))
    | _ => none
  | .list p names =>
    match s.phase p with
    | .listing budget charge =>
      if names.Perm (s.leases.map Lease.name) then
        some (s.goto p (.scanning budget charge ⟨names, ⟨0, 0⟩, []⟩))
      else none
    | _ => none
  | .openLease p =>
    match s.phase p with
    | .scanning budget charge ⟨name :: rest, sums, counted⟩ =>
      match s.lease? name with
      | some _ => some (s.goto p (.opened budget charge name ⟨rest, sums, counted⟩))
      | none => some (s.goto p (.scanning budget charge ⟨rest, sums, counted⟩))
    | _ => none
  | .tryLease p =>
    match s.phase p with
    | .opened budget charge name scan =>
      match s.lease? name with
      | some l =>
        if l.Held then some (s.goto p (.refused budget charge name scan))
        else some (s.goto p (.stale budget charge name scan))
      | none => some (s.goto p (.stale budget charge name scan))
    | _ => none
  | .removeLease p permitted =>
    match s.phase p with
    | .stale budget charge name scan =>
      -- in a sticky directory another user's file cannot be removed
      some ((if permitted then s.removeFile name else s).goto p (.scanning budget charge scan))
    | _ => none
  | .readLease p =>
    match s.phase p with
    | .refused budget charge name scan =>
      match s.lease? name with
      | some l =>
        match readNumber l.text with
        | .ok value =>
          match scan.sums.add value.1 (s.now < l.modTime + startupSeconds) with
          | .ok sums =>
            some (s.goto p (.scanning budget charge
              ⟨scan.names, sums, (name, value.1) :: scan.counted⟩))
          | .error failure => some (s.finish p (.failed failure))
        | .error failure => some (s.finish p (.failed failure))
      | none => none
    | _ => none
  | .decide p info =>
    match s.phase p with
    | .scanning budget charge ⟨[], sums, _⟩ =>
      match decision budget charge sums info with
      | .ok none => some (s.goto p (.creating budget charge))
      | .ok (some why) => some (s.finish p (.wait why))
      | .error failure => some (s.finish p (.failed failure))
    | _ => none
  | .createLease p name =>
    match s.phase p with
    | .creating budget charge =>
      -- names are tried until one is free; a try that finds a file changes nothing
      if name ∈ s.leases.map Lease.name then none
      else some ({ s with leases := ⟨name, [], s.now, 0⟩ :: s.leases }.goto p
        (.created budget charge name))
    | _ => none
  | .writeLease p =>
    match s.phase p with
    | .created budget charge name =>
      some ((s.setLease name fun l ↦ { l with text := numberText charge }).goto p
        (.written budget charge name))
    | _ => none
  | .lockLease p =>
    match s.phase p with
    | .written _ _ name =>
      match s.lease? name with
      | some l =>
        if l.Held then some ((s.removeFile name).finish p (.failed .system))
        else some ((s.setLease name fun l ↦ { l with holders := 1 }).finish p (.admitted name))
      | none => none
    | _ => none
  | .raise p =>
    match s.phase p with
    | .waiting _ _ => some (s.goto p (.failed .system))
    | .created _ _ name | .written _ _ name =>
      some ((s.removeFile name).finish p (.failed .system))
    | _ => if (s.phase p).underLock then some (s.finish p (.failed .system)) else none
  | .kill p =>
    some (if (s.phase p).underLock then s.finish p .idle else s.goto p .idle)
  | .inherit name =>
    some (s.setLease name fun l ↦ if l.Held then { l with holders := l.holders + 1 } else l)
  | .close name => some (s.setLease name fun l ↦ { l with holders := l.holders - 1 })
  | .resize p =>
    if (s.phase p).resting ∧ s.lock = none then some { s.goto p .resizing with lock := some p }
    else none
  | .replaceBudget p text =>
    match s.phase p with
    | .resizing => some { s with budgetFile := some text }
    | _ => none
  | .unlock p =>
    match s.phase p with
    | .resizing => some (s.finish p .idle)
    | _ => none
  | .tick => some { s with now := s.now + 1 }

/-- The processes of an empty directory. -/
def processes : Machine State Event where
  initial :=
    { lock := none
      phase := fun _ ↦ .idle
      settings := fun _ ↦ none
      attempt := fun _ ↦ none
      budgetFile := none
      leases := []
      now := 0 }
  step := step

end Holbuild.MachineMemory
