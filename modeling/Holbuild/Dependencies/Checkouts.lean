import Holbuild.Library.FileLocks
import Holbuild.Library.Machine
import Holbuild.Library.Texts
import Mathlib.Data.Finset.Basic

/-!
# Checkouts of git dependencies

Processes that share a project and a cache root materialize dependencies. A checkout whose HEAD is at the
pinned commit is used under a shared lease, which is held until the process ends. Otherwise, under the
checkout's lock, a clone of the dependency's mirror is made in a temporary directory and renamed into place;
an existing tree is removed before, file by file, under the lease's exclusive lock.

A process that is killed while it removes a tree leaves one whose HEAD may still be at its old commit, and
another process takes it for complete (`damaged_checkout_used`). Where that does not happen, where no
dependency is named as another's temporary directories are, and where no process gives up a checkout that it
was given to ask for another revision, checkouts are whole and stay (`checkouts_stay_whole`).
-/

set_option autoImplicit false
set_option relaxedAutoImplicit false

namespace Holbuild.Dependencies

open Library

/-! ### Names -/

variable {stem stem' entry name hash : Text} {pid : ℕ}

/-- What follows a start of an entry's name. -/
def afterPrefix (start entry : Text) : Option Text :=
  if start.isPrefixOf entry then some (entry.drop start.length) else none

theorem afterPrefix_eq_some {start rest : Text} :
    afterPrefix start entry = some rest ↔ entry = start ++ rest := by
  rw [afterPrefix]
  split_ifs with hstart
  · obtain ⟨rest', rfl⟩ := List.isPrefixOf_iff_prefix.mp hstart
    simp
  · refine ⟨(fun h ↦ nomatch h), fun h ↦ absurd ?_ hstart⟩
    exact List.isPrefixOf_iff_prefix.mpr ⟨rest, h.symm⟩

/-- Whether an entry is a temporary directory with a prefix. -/
def isTemp (stem entry : Text) : Bool :=
  match afterPrefix (stem ++ ['-']) entry with
  | some pid => pid ≠ [] ∧ pid.all Char.isDigit
  | none => false

/-- The temporary directory of a process. -/
def tempEntry (stem : Text) (pid : ℕ) : Text := stem ++ '-' :: decimal pid

theorem isTemp_iff : isTemp stem entry ↔
    ∃ pid, entry = stem ++ '-' :: pid ∧ pid ≠ [] ∧ ∀ c ∈ pid, c.isDigit := by
  have happend : ∀ pid, stem ++ '-' :: pid = (stem ++ ['-']) ++ pid := by simp
  rw [isTemp]
  split
  · next pid hpid =>
    have hentry := afterPrefix_eq_some.mp hpid
    rw [decide_eq_true_eq, List.all_eq_true]
    constructor
    · rintro ⟨hne, hdigits⟩
      exact ⟨pid, hentry.trans (happend pid).symm, hne, hdigits⟩
    · rintro ⟨pid', hpid', hne, hdigits⟩
      have heq : pid = pid' := by
        rw [happend, hentry] at hpid'
        exact List.append_cancel_left hpid'
      exact heq ▸ ⟨hne, hdigits⟩
  · next hnone =>
    refine ⟨(fun h ↦ nomatch h), ?_⟩
    rintro ⟨pid, hpid, -⟩
    cases hnone.symm.trans (afterPrefix_eq_some.mpr (hpid.trans (happend pid)))

/-- The prefix of the temporary directories for a dependency. -/
def checkoutStem (name : Text) : Text := ".tmp-".toList ++ name

theorem checkoutStem_injective : Function.Injective checkoutStem := fun _ _ h ↦ List.append_cancel_left h

/-- A mirror's directory, named by the hash of its URL. -/
def mirrorFile (hash : Text) : Text := hash ++ ".git".toList

theorem mirrorFile_injective : Function.Injective mirrorFile := fun _ _ h ↦ List.append_cancel_right h

/-- The prefix of the temporary directories for a mirror. -/
def mirrorStem (hash : Text) : Text := mirrorFile hash ++ ".tmp".toList

theorem mirrorStem_injective : Function.Injective mirrorStem := fun _ _ h ↦
  List.append_cancel_right (List.append_cancel_right h)

/-- Texts of digits after a dash determine what stands before. -/
theorem eq_of_append_dash {a b d e : Text} (h : a ++ '-' :: d = b ++ '-' :: e)
    (hd : ∀ c ∈ d, c.isDigit) (he : ∀ c ∈ e, c.isDigit) : a = b := by
  have hdash : ∀ text : Text, (∀ c ∈ text, c.isDigit) → '-' ∉ text := fun text htext hmem ↦
    absurd (htext _ hmem) (by decide)
  rcases List.append_eq_append_iff.mp h with ⟨rest, hb, hrest⟩ | ⟨rest, ha, hrest⟩
  · cases rest with
    | nil => simpa using hb.symm
    | cons c rest =>
      obtain ⟨-, hd'⟩ := List.cons_eq_cons.mp hrest
      exact absurd (hd' ▸ List.mem_append_right rest List.mem_cons_self) (hdash d hd)
  · cases rest with
    | nil => simpa using ha
    | cons c rest =>
      obtain ⟨-, he'⟩ := List.cons_eq_cons.mp hrest
      exact absurd (he' ▸ List.mem_append_right rest List.mem_cons_self) (hdash e he)

def isSafeName (name : Text) : Bool :=
  name ≠ [] ∧ name.all fun c ↦ c.isAlphanum || c = '_' || c = '.' || c = '-'

def isHex (c : Char) : Bool := c.isDigit || ('a' ≤ c && c ≤ 'f')

def validRev (rev : Text) : Bool := rev.length = 40 && rev.all isHex

/-- A process's temporary directory is one. -/
theorem isTemp_tempEntry : isTemp stem (tempEntry stem pid) :=
  isTemp_iff.mpr ⟨_, rfl, decimal_ne_nil pid, fun _ hc ↦ isDigit_of_mem_decimal hc⟩

/-- Temporary directories of one prefix are none of another. -/
theorem stem_eq_of_isTemp (h : isTemp stem' (tempEntry stem pid)) : stem' = stem := by
  obtain ⟨digits, hentry, -, hdigits⟩ := isTemp_iff.mp h
  exact (eq_of_append_dash hentry (fun _ hc ↦ isDigit_of_mem_decimal hc) hdigits).symm

/-- Whether a dependency is named as a temporary directory of a dependency is. -/
def tempLike (name : Text) : Bool :=
  match afterPrefix ".tmp-".toList name with
  | some rest => (rest.reverse.dropWhile Char.isDigit).head? = some '-' ∧ rest.getLast?.any Char.isDigit
  | none => false

/-- A mirror is no temporary directory. -/
theorem not_isTemp_mirrorFile : isTemp stem (mirrorFile hash) = false := by
  by_contra htemp
  obtain ⟨digits, hentry, hne, hdigits⟩ := isTemp_iff.mp (Bool.eq_true_of_not_eq_false htemp)
  have hlast : (mirrorFile hash).getLast? = some 't' := by simp [mirrorFile]
  rw [hentry, List.getLast?_append_cons, List.getLast?_cons] at hlast
  have hmem : 't' ∈ digits := by
    obtain ⟨d, hd⟩ := List.getLast?_isSome.mpr hne |> Option.isSome_iff_exists.mp
    rw [hd] at hlast
    exact List.mem_of_getLast? (hd.trans hlast)
  exact absurd (hdigits _ hmem) (by decide)

/-- A temporary directory of a dependency is named as one. -/
theorem tempLike_of_isTemp (h : isTemp (checkoutStem name) entry) : tempLike entry := by
  obtain ⟨digits, rfl, hne, hdigits⟩ := isTemp_iff.mp h
  have hrest : afterPrefix ".tmp-".toList (checkoutStem name ++ '-' :: digits) = some (name ++ '-' :: digits) :=
    afterPrefix_eq_some.mpr (List.append_assoc ..)
  have hdrop : ((name ++ '-' :: digits).reverse.dropWhile Char.isDigit).head? = some '-' := by
    have hreverse : (name ++ '-' :: digits).reverse = digits.reverse ++ '-' :: name.reverse := by simp
    rw [hreverse, List.dropWhile_append_of_pos fun c hc ↦ hdigits c (List.mem_reverse.mp hc)]
    simp
  have hlast : (name ++ '-' :: digits).getLast?.any Char.isDigit := by
    obtain ⟨c, hc⟩ := Option.isSome_iff_exists.mp (List.getLast?_isSome.mpr hne)
    rw [List.getLast?_append_cons, List.getLast?_cons, hc]
    exact hdigits c (List.mem_of_getLast? hc)
  rw [tempLike, hrest]
  exact decide_eq_true ⟨hdrop, hlast⟩

/-! ### Processes -/

/-- What a directory holds of a checkout: the commit that HEAD names, while it can be read, and the files
that are there. -/
structure Tree where
  head : Option Text
  files : Finset Text
deriving DecidableEq

/-- A tree without one of its files; without `none` HEAD can be read no more. -/
def Tree.erase (tree : Tree) : Option Text → Tree
  | some file => { tree with files := tree.files.erase file }
  | none => { tree with head := none }

/-- The files of a commit, and the commit that a revision names. -/
structure Repository where
  files : Text → Finset Text
  peel : Text → Text
  peel_peel : ∀ rev, peel (peel rev) = peel rev

/-- The complete checkout of a revision. -/
def Repository.checkout (repository : Repository) (rev : Text) : Tree :=
  ⟨some (repository.peel rev), repository.files (repository.peel rev)⟩

/-- A dependency to materialize: its name, the hash of its URL and its pinned revision. -/
structure Task where
  name : Text
  hash : Text
  rev : Text
deriving DecidableEq

inductive Lock
  | checkout (name : Text)
  | lease (name : Text)
  | mirror (hash : Text)
deriving DecidableEq

/-- Where a process is in `materialize`. -/
inductive Phase
  | checking
  | leasing
  | rechecking
  | dropping
  | locking
  /-- The checkout's lock is held from here on. HEAD is read again. -/
  | lockedChecking
  | lookingForCommit
  | lockingMirror
  /-- The mirror's lock is held from here on, until the commit is there. -/
  | mirrorLocked
  | clearingMirror
  | startingMirror
  | cloningMirror
  | renamingMirror
  | fetching
  | abandoningMirror
  | clearing
  | starting
  | cloning
  | publishing
  /-- The lease is held exclusively, and nothing has been removed yet. -/
  | removing
  /-- Some of the tree has been removed. -/
  | unlinking
  | moving
  /-- The temporary directory is removed before the process raises; the tree has been removed or not. -/
  | abandoning (removed : Bool)
  | leasingNew
  | unlocking
deriving DecidableEq

/-- A process: the call of `materialize` it is in, the names whose leases it has noted, and the revisions
that it was given and has not replaced itself. -/
structure Process where
  call : Option (Task × Phase)
  leases : List Text
  given : Text → Option Text

def Process.fresh : Process := ⟨none, [], fun _ ↦ none⟩

/-- The directories of checkouts and of mirrors by the names of their entries, a mirror with whether it is
complete; who holds locks; and the processes, any number of them. -/
structure State where
  src : Text → Option Tree
  mirrors : Text → Option Bool
  locks : LockTable Lock
  procs : ℕ → Process

inductive Action
  | call (task : Task)
  /-- The next step, which may fail. -/
  | go (ok : Bool)
  /-- A file of the tree to be replaced is removed. -/
  | unlink (file : Option Text)
  /-- The process is killed, or ends. -/
  | stop

variable (repository : Repository)

namespace State

def setCall (s : State) (p : ℕ) (call : Option (Task × Phase)) : State :=
  { s with procs := Function.update s.procs p { s.procs p with call := call } }

/-- A process goes on to a phase of its call. -/
def goto (s : State) (p : ℕ) (task : Task) (phase : Phase) : State := s.setCall p (some (task, phase))

/-- A process ends: its locks go. -/
def exit (s : State) (p : ℕ) : State :=
  { s with locks := s.locks.exit p, procs := Function.update s.procs p .fresh }

/-- A call returns the checkout. -/
def give (s : State) (p : ℕ) (task : Task) : State :=
  { s with procs := Function.update s.procs p { s.procs p with
    call := none, given := Function.update (s.procs p).given task.name (some task.rev) } }

def setSrc (s : State) (entry : Text) (tree : Option Tree) : State :=
  { s with src := Function.update s.src entry tree }

def setMirror (s : State) (entry : Text) (complete : Option Bool) : State :=
  { s with mirrors := Function.update s.mirrors entry complete }

/-- The directories with a prefix are removed. -/
def clearSrc (s : State) (stem : Text) : State :=
  { s with src := fun entry ↦ if isTemp stem entry then none else s.src entry }

def clearMirrors (s : State) (stem : Text) : State :=
  { s with mirrors := fun entry ↦ if isTemp stem entry then none else s.mirrors entry }

def acquire (s : State) (p : ℕ) (lock : Lock) (mode : LockMode) : Option State :=
  (s.locks.acquire p lock mode).map fun locks ↦ { s with locks := locks }

def close (s : State) (p : ℕ) (lock : Lock) : State := { s with locks := s.locks.close p lock }

/-- The commit that HEAD names in a directory. -/
def materializedHead (s : State) (name : Text) : Option Text := (s.src name).bind (·.head)

def setLeases (s : State) (p : ℕ) (leases : List Text) : State :=
  { s with procs := Function.update s.procs p { s.procs p with leases := leases } }

/-- A lease is acquired unless it is held; `none` while another process holds it exclusively. -/
def holdLease (s : State) (p : ℕ) (name : Text) : Option State :=
  if name ∈ (s.procs p).leases then some s
  else (s.acquire p (.lease name) .shared).map fun s' ↦ s'.setLeases p (name :: (s'.procs p).leases)

/-- A lease is given up. -/
def dropLease (s : State) (p : ℕ) (name : Text) : State :=
  (s.close p (.lease name)).setLeases p ((s.procs p).leases.filter (· ≠ name))

/-- A complete clone is moved to a checkout's place. -/
def place (s : State) (p : ℕ) (name : Text) : State :=
  (s.setSrc name (s.src (tempEntry (checkoutStem name) p))).setSrc (tempEntry (checkoutStem name) p) none

/-- A complete mirror is moved to its place. -/
def placeMirror (s : State) (p : ℕ) (hash : Text) : State :=
  (s.setMirror (mirrorFile hash) (s.mirrors (tempEntry (mirrorStem hash) p))).setMirror
    (tempEntry (mirrorStem hash) p) none

variable {s : State} {p q : ℕ} {task : Task} {phase : Phase}

@[simp] theorem goto_call : ((s.goto p task phase).procs p).call = some (task, phase) := by
  simp [goto, setCall]

@[simp] theorem goto_leases : ((s.goto p task phase).procs p).leases = (s.procs p).leases := by
  simp [goto, setCall]

@[simp] theorem goto_given : ((s.goto p task phase).procs p).given = (s.procs p).given := by
  simp [goto, setCall]

theorem goto_procs (hne : q ≠ p) : (s.goto p task phase).procs q = s.procs q :=
  Function.update_of_ne hne ..

theorem exit_procs (hne : q ≠ p) : (s.exit p).procs q = s.procs q := Function.update_of_ne hne ..

theorem give_procs (hne : q ≠ p) : (s.give p task).procs q = s.procs q := Function.update_of_ne hne ..

end State

/-- The next step of a call; `none` while a lock cannot be had. -/
def go (s : State) (p : ℕ) (task : Task) (ok : Bool) : Phase → Option State
  | .checking =>
    some (s.goto p task (if s.materializedHead task.name = some task.rev then .leasing else .dropping))
  | .leasing => (s.holdLease p task.name).map fun s' ↦ s'.goto p task .rechecking
  | .rechecking =>
    if s.materializedHead task.name = some task.rev then some (s.give p task)
    else some (s.goto p task .dropping)
  | .dropping => some ((s.dropLease p task.name).goto p task .locking)
  | .locking =>
    (s.acquire p (.checkout task.name) .exclusive).map fun s' ↦ s'.goto p task .lockedChecking
  | .lockedChecking =>
    some (s.goto p task
      (if s.materializedHead task.name = some task.rev then .leasingNew else .lookingForCommit))
  | .lookingForCommit =>
    some (s.goto p task
      (if (s.mirrors (mirrorFile task.hash)).isSome ∧ ok then .clearing else .lockingMirror))
  | .lockingMirror =>
    (s.acquire p (.mirror task.hash) .exclusive).map fun s' ↦ s'.goto p task .mirrorLocked
  | .mirrorLocked =>
    some (s.goto p task
      (if (s.mirrors (mirrorFile task.hash)).isSome then .fetching else .clearingMirror))
  | .clearingMirror => some ((s.clearMirrors (mirrorStem task.hash)).goto p task .startingMirror)
  | .startingMirror =>
    some ((s.setMirror (tempEntry (mirrorStem task.hash) p) (some false)).goto p task .cloningMirror)
  | .cloningMirror =>
    if ok then
      some ((s.setMirror (tempEntry (mirrorStem task.hash) p) (some true)).goto p task .renamingMirror)
    else some (s.goto p task .abandoningMirror)
  | .renamingMirror =>
    if ok then some ((s.placeMirror p task.hash).goto p task .fetching)
    else some (s.goto p task .abandoningMirror)
  | .fetching =>
    if ok then some ((s.close p (.mirror task.hash)).goto p task .clearing) else some (s.exit p)
  | .abandoningMirror => some ((s.setMirror (tempEntry (mirrorStem task.hash) p) none).exit p)
  | .clearing => some ((s.clearSrc (checkoutStem task.name)).goto p task .starting)
  | .starting =>
    some ((s.setSrc (tempEntry (checkoutStem task.name) p) (some ⟨none, ∅⟩)).goto p task .cloning)
  | .cloning =>
    if ok then
      some ((s.setSrc (tempEntry (checkoutStem task.name) p) (some (repository.checkout task.rev))).goto p
        task .publishing)
    else some (s.goto p task (.abandoning false))
  | .publishing =>
    if (s.src task.name).isSome then
      -- a lease that cannot be had is probed, which closes a descriptor of it
      some (match s.acquire p (.lease task.name) .exclusive with
        | some s' => s'.goto p task .removing
        | none => (s.close p (.lease task.name)).goto p task (.abandoning false))
    else if ok then some ((s.place p task.name).goto p task .leasingNew)
    else some (s.goto p task (.abandoning false))
  | .removing =>
    if ok then some ((s.setSrc task.name none).goto p task .moving)
    else some ((s.close p (.lease task.name)).goto p task (.abandoning false))
  | .unlinking =>
    if ok then some ((s.setSrc task.name none).goto p task .moving)
    else some ((s.close p (.lease task.name)).goto p task (.abandoning true))
  | .moving =>
    if ok then some (((s.place p task.name).close p (.lease task.name)).goto p task .leasingNew)
    else some ((s.close p (.lease task.name)).goto p task (.abandoning true))
  | .abandoning _ => some ((s.setSrc (tempEntry (checkoutStem task.name) p) none).exit p)
  | .leasingNew => (s.holdLease p task.name).map fun s' ↦ s'.goto p task .unlocking
  | .unlocking => some ((s.close p (.checkout task.name)).give p task)

/-- A file of the tree that is to be replaced is removed. -/
def unlink (s : State) (p : ℕ) (file : Option Text) : Option State :=
  match (s.procs p).call with
  | some (task, .removing) | some (task, .unlinking) =>
    (s.src task.name).map fun tree ↦
      (s.setSrc task.name (some (tree.erase file))).goto p task .unlinking
  | _ => none

/-- One step of a process. A call with an unsafe name or a short revision raises. -/
def act (s : State) (p : ℕ) : Action → Option State
  | .call task =>
    if (s.procs p).call.isSome then none
    else if isSafeName task.name && validRev task.rev then some (s.goto p task .checking)
    else some (s.exit p)
  | .go ok => (s.procs p).call.bind fun call ↦ go repository s p call.1 ok call.2
  | .unlink file => unlink s p file
  | .stop => some (s.exit p)

/-! ### Where a process is -/

namespace Phase

/-- Whether the checkout's lock is held. -/
def locked : Phase → Bool
  | .checking | .leasing | .rechecking | .dropping | .locking => false
  | _ => true

/-- Whether the mirror's lock is held. -/
def mirrorHeld : Phase → Bool
  | .mirrorLocked | .clearingMirror | .startingMirror | .cloningMirror | .renamingMirror | .fetching
  | .abandoningMirror => true
  | _ => false

/-- Whether the lease has been given up. -/
def dropped : Phase → Bool
  | .checking | .leasing | .rechecking | .dropping | .unlocking => false
  | _ => true

/-- Whether there is a complete clone in the temporary directory. -/
def cloned : Phase → Bool
  | .publishing | .removing | .unlinking | .moving => true
  | _ => false

/-- Whether the lease is held exclusively. -/
def exclusive : Phase → Bool
  | .removing | .unlinking | .moving => true
  | _ => false

/-- Whether the tree has been removed. -/
def absent : Phase → Bool
  | .moving | .abandoning true => true
  | _ => false

/-- Whether the checkout is in its place. -/
def placed : Phase → Bool
  | .leasingNew | .unlocking => true
  | _ => false

/-- Whether the call has left the checkout's place as it was. -/
def untouched : Phase → Bool
  | .unlinking | .moving | .abandoning true | .leasingNew | .unlocking => false
  | _ => true

/-- Whether the lease is noted. -/
def leased : Phase → Bool
  | .rechecking | .unlocking => true
  | _ => false

end Phase

/-! ### What is known of a process where it is -/

/-- A process holds a lock. -/
def State.Holds (s : State) (p : ℕ) (lock : Lock) (mode : LockMode) : Prop :=
  (p, mode) ∈ s.locks.holders lock

/-- What is known of a process in a call. -/
structure CallOk (s : State) (p : ℕ) (task : Task) (phase : Phase) : Prop where
  named : tempLike task.name = false
  locked : phase.locked → s.Holds p (.checkout task.name) .exclusive := by exact nofun
  mirrorHeld : phase.mirrorHeld → s.Holds p (.mirror task.hash) .exclusive := by exact nofun
  dropped : phase.dropped → task.name ∉ (s.procs p).leases := by exact nofun
  cloning : phase = .cloning → (s.src (tempEntry (checkoutStem task.name) p)).isSome := by exact nofun
  cloned : phase.cloned → s.src (tempEntry (checkoutStem task.name) p) =
    some (repository.checkout task.rev) := by exact nofun
  mirrorCloning : phase = .cloningMirror →
    (s.mirrors (tempEntry (mirrorStem task.hash) p)).isSome := by exact nofun
  mirrorCloned : phase = .renamingMirror →
    s.mirrors (tempEntry (mirrorStem task.hash) p) = some true := by exact nofun
  exclusive : phase.exclusive → s.Holds p (.lease task.name) .exclusive := by exact nofun
  absent : phase.absent → s.src task.name = none := by exact nofun
  placed : phase.placed → s.src task.name = some (repository.checkout task.rev) := by exact nofun
  leased : phase.leased → task.name ∈ (s.procs p).leases := by exact nofun

/-- What is known of a process: its leases are held, and what it was given is there under a lease. -/
structure ProcOk (s : State) (p : ℕ) : Prop where
  leases : ∀ name ∈ (s.procs p).leases, s.Holds p (.lease name) .shared
  given : ∀ name rev, (s.procs p).given name = some rev → tempLike name = false ∧
    name ∈ (s.procs p).leases ∧ s.src name = some (repository.checkout rev)
  call : ∀ task phase, (s.procs p).call = some (task, phase) → CallOk repository s p task phase

/-- A process is removing a tree file by file. -/
def State.Unlinking (s : State) (name : Text) : Prop :=
  ∃ p task, (s.procs p).call = some (task, .unlinking) ∧ task.name = name

structure Inv (s : State) : Prop where
  whole : ∀ name tree, tempLike name = false → s.src name = some tree →
    (∃ rev, tree = repository.checkout rev) ∨ s.Unlinking name
  complete : ∀ hash complete, s.mirrors (mirrorFile hash) = some complete → complete = true
  procs : ∀ p, ProcOk repository s p

/-- Which entries of the checkouts' directory a process may change: the temporary directories of a name
whose lock it holds, and a checkout whose lock it holds, if it is not there or is not leased to another. -/
def State.MayChange (s : State) (p : ℕ) (entry : Text) : Prop :=
  (∃ name, s.Holds p (.checkout name) .exclusive ∧ isTemp (checkoutStem name) entry) ∨
    (tempLike entry = false ∧ s.Holds p (.checkout entry) .exclusive ∧
      (s.Holds p (.lease entry) .exclusive ∨ s.src entry = none))

/-- Which entries of the mirrors' directory a process may change. -/
def State.MayChangeMirror (s : State) (p : ℕ) (entry : Text) : Prop :=
  ∃ hash, s.Holds p (.mirror hash) .exclusive ∧ (isTemp (mirrorStem hash) entry ∨ entry = mirrorFile hash)

/-- What a step of a process leaves as it is, and how it leaves checkouts and mirrors. -/
structure Frame (s s' : State) (p : ℕ) : Prop where
  procs : ∀ q ≠ p, s'.procs q = s.procs q
  locks : ∀ q ≠ p, ∀ lock mode, s'.Holds q lock mode ↔ s.Holds q lock mode
  src : ∀ entry, s'.src entry ≠ s.src entry → s.MayChange p entry
  mirrors : ∀ entry, s'.mirrors entry ≠ s.mirrors entry → s.MayChangeMirror p entry
  whole : ∀ name, tempLike name = false → s'.src name ≠ s.src name → s'.src name = none ∨
    (∃ rev, s'.src name = some (repository.checkout rev)) ∨ s'.Unlinking name
  unlinking : ∀ task, (s.procs p).call = some (task, .unlinking) →
    (s'.procs p).call = some (task, .unlinking) ∨ s'.src task.name = none
  complete : ∀ hash, s'.mirrors (mirrorFile hash) ≠ s.mirrors (mirrorFile hash) →
    s'.mirrors (mirrorFile hash) = some true

variable {repository} {s s' : State} {p q : ℕ} {task : Task} {phase : Phase}

/-- Two processes do not hold a lock if one of them holds it exclusively. -/
theorem State.Holds.ne {lock : Lock} {mode : LockMode} (h : s.Holds p lock .exclusive)
    (hq : s.Holds q lock mode) : q = p :=
  LockTable.alone h hq

/-- A checkout that a process has locked, or that is there and leased to it, no other process changes. -/
theorem Frame.src_eq (hframe : Frame repository s s' p) (hne : q ≠ p) (hname : tempLike name = false)
    (hheld : s.Holds q (.checkout name) .exclusive ∨
      (s.Holds q (.lease name) .shared ∧ s.src name ≠ none)) : s'.src name = s.src name := by
  by_contra hchanged
  rcases hframe.src name hchanged with ⟨other, -, htemp⟩ | ⟨-, hcheckout, hlease⟩
  · exact absurd (tempLike_of_isTemp htemp) (Bool.eq_false_iff.mp hname)
  · rcases hheld with hheld | ⟨hheld, hsome⟩
    · exact hne (hcheckout.ne hheld)
    · rcases hlease with hlease | hnone
      · exact hne (hlease.ne hheld)
      · exact hsome hnone

/-- The temporary directory of a process that has locked the checkout no other process changes. -/
theorem Frame.temp_eq (hframe : Frame repository s s' p) (hne : q ≠ p)
    (hheld : s.Holds q (.checkout name) .exclusive) :
    s'.src (tempEntry (checkoutStem name) q) = s.src (tempEntry (checkoutStem name) q) := by
  by_contra hchanged
  rcases hframe.src _ hchanged with ⟨other, hother, htemp⟩ | ⟨hname, -, -⟩
  · have hsame := checkoutStem_injective (stem_eq_of_isTemp htemp)
    exact hne ((hsame ▸ hother).ne hheld)
  · exact absurd (tempLike_of_isTemp isTemp_tempEntry) (Bool.eq_false_iff.mp hname)

theorem Frame.mirrorTemp_eq (hframe : Frame repository s s' p) (hne : q ≠ p)
    (hheld : s.Holds q (.mirror hash) .exclusive) :
    s'.mirrors (tempEntry (mirrorStem hash) q) = s.mirrors (tempEntry (mirrorStem hash) q) := by
  by_contra hchanged
  obtain ⟨other, hother, htemp | hfile⟩ := hframe.mirrors _ hchanged
  · have hsame := mirrorStem_injective (stem_eq_of_isTemp htemp)
    exact hne ((hsame ▸ hother).ne hheld)
  · have htemp : isTemp (mirrorStem hash) (mirrorFile other) := hfile ▸ isTemp_tempEntry
    exact absurd htemp (Bool.eq_false_iff.mp not_isTemp_mirrorFile)

/-- What is known of a process stays known while others take steps. -/
theorem ProcOk.frame (h : ProcOk repository s q) (hframe : Frame repository s s' p) (hne : q ≠ p) :
    ProcOk repository s' q := by
  have hproc := hframe.procs q hne
  have hholds : ∀ {lock mode}, s.Holds q lock mode → s'.Holds q lock mode := fun hlock ↦
    (hframe.locks q hne _ _).mpr hlock
  refine ⟨fun name hname ↦ ?_, fun name rev hgiven ↦ ?_, fun task phase hcall ↦ ?_⟩
  · rw [hproc] at hname
    exact hholds (h.leases name hname)
  · rw [hproc] at hgiven ⊢
    obtain ⟨hname, hlease, hsrc⟩ := h.given name rev hgiven
    refine ⟨hname, hlease, ?_⟩
    rw [hframe.src_eq hne hname (.inr ⟨h.leases name hlease, by simp [hsrc]⟩), hsrc]
  · rw [hproc] at hcall
    have hok := h.call task phase hcall
    have hdest : phase.locked → s'.src task.name = s.src task.name := fun hlocked ↦
      hframe.src_eq hne hok.named (.inl (hok.locked hlocked))
    have htemp : phase.locked → s'.src (tempEntry (checkoutStem task.name) q) =
        s.src (tempEntry (checkoutStem task.name) q) := fun hlocked ↦
      hframe.temp_eq hne (hok.locked hlocked)
    have hmirror : phase.mirrorHeld → s'.mirrors (tempEntry (mirrorStem task.hash) q) =
        s.mirrors (tempEntry (mirrorStem task.hash) q) := fun hheld ↦
      hframe.mirrorTemp_eq hne (hok.mirrorHeld hheld)
    have hcloned : phase.cloned → phase.locked := by cases phase <;> simp [Phase.cloned, Phase.locked]
    have habsent : phase.absent → phase.locked := by
      cases phase with
      | abandoning removed => cases removed <;> decide
      | _ => decide
    have hplaced : phase.placed → phase.locked := by cases phase <;> simp [Phase.placed, Phase.locked]
    exact {
      named := hok.named
      locked := fun hlocked ↦ hholds (hok.locked hlocked)
      mirrorHeld := fun hheld ↦ hholds (hok.mirrorHeld hheld)
      dropped := fun hdropped ↦ hproc ▸ hok.dropped hdropped
      cloning := by
        rintro rfl
        rw [htemp rfl]
        exact hok.cloning rfl
      cloned := fun hphase ↦ (htemp (hcloned hphase)).trans (hok.cloned hphase)
      mirrorCloning := by
        rintro rfl
        rw [hmirror rfl]
        exact hok.mirrorCloning rfl
      mirrorCloned := by
        rintro rfl
        exact (hmirror rfl).trans (hok.mirrorCloned rfl)
      exclusive := fun hphase ↦ hholds (hok.exclusive hphase)
      absent := fun hphase ↦ (hdest (habsent hphase)).trans (hok.absent hphase)
      placed := fun hphase ↦ (hdest (hplaced hphase)).trans (hok.placed hphase)
      leased := fun hphase ↦ hproc ▸ hok.leased hphase }

/-- What is known stays known when a process takes a step that keeps what is known of it. -/
theorem Inv.frame (h : Inv repository s) (hframe : Frame repository s s' p)
    (hok : ProcOk repository s' p) : Inv repository s' := by
  refine ⟨fun name tree hname hsrc ↦ ?_, fun hash complete hmirror ↦ ?_, fun q ↦ ?_⟩
  · by_cases hchanged : s'.src name = s.src name
    · rcases h.whole name tree hname (hchanged ▸ hsrc) with hwhole | ⟨q, task, hcall, htask⟩
      · exact .inl hwhole
      · rcases eq_or_ne q p with rfl | hne
        · rcases hframe.unlinking task hcall with hcall' | hnone
          · exact .inr ⟨q, task, hcall', htask⟩
          · rw [htask] at hnone
            cases hnone.symm.trans hsrc
        · exact .inr ⟨q, task, (congrArg (·.call) (hframe.procs q hne)).trans hcall, htask⟩
    · rcases hframe.whole name hname hchanged with hnone | ⟨rev, hrev⟩ | hunlinking
      · cases hnone.symm.trans hsrc
      · exact .inl ⟨rev, Option.some.inj (hsrc.symm.trans hrev)⟩
      · exact .inr hunlinking
  · by_cases hchanged : s'.mirrors (mirrorFile hash) = s.mirrors (mirrorFile hash)
    · exact h.complete hash complete (hchanged ▸ hmirror)
    · exact (Option.some.inj (hmirror.symm.trans (hframe.complete hash hchanged)))
  · rcases eq_or_ne q p with rfl | hne
    · exact hok
    · exact (h.procs q).frame hframe hne

/-! ### What a step keeps -/

/-- A step that changes neither directory. -/
theorem Frame.of_locks (hprocs : ∀ q ≠ p, s'.procs q = s.procs q)
    (hlocks : ∀ q ≠ p, ∀ lock mode, s'.Holds q lock mode ↔ s.Holds q lock mode)
    (hsrc : s'.src = s.src) (hmirrors : s'.mirrors = s.mirrors)
    (hunlinking : ∀ task, (s.procs p).call ≠ some (task, .unlinking)) : Frame repository s s' p where
  procs := hprocs
  locks := hlocks
  src entry hchanged := absurd (congrFun hsrc entry) hchanged
  mirrors entry hchanged := absurd (congrFun hmirrors entry) hchanged
  whole name _ hchanged := absurd (congrFun hsrc name) hchanged
  unlinking task hcall := absurd hcall (hunlinking task)
  complete _ hchanged := absurd (congrFun hmirrors _) hchanged

/-- A step that changes temporary directories of checkouts. -/
theorem Frame.of_temps (hprocs : ∀ q ≠ p, s'.procs q = s.procs q)
    (hlocks : ∀ q ≠ p, ∀ lock mode, s'.Holds q lock mode ↔ s.Holds q lock mode)
    (hmirrors : s'.mirrors = s.mirrors) (hheld : s.Holds p (.checkout name) .exclusive)
    (hsrc : ∀ entry, isTemp (checkoutStem name) entry = false → s'.src entry = s.src entry)
    (hunlinking : ∀ task, (s.procs p).call ≠ some (task, .unlinking)) : Frame repository s s' p where
  procs := hprocs
  locks := hlocks
  src entry hchanged := .inl ⟨name, hheld, by
    by_contra htemp
    exact hchanged (hsrc entry (Bool.eq_false_iff.mpr htemp))⟩
  mirrors entry hchanged := absurd (congrFun hmirrors entry) hchanged
  whole other hother hchanged := by
    refine absurd (hsrc other (Bool.eq_false_iff.mpr fun htemp ↦ ?_)) hchanged
    exact absurd (tempLike_of_isTemp htemp) (Bool.eq_false_iff.mp hother)
  unlinking task hcall := absurd hcall (hunlinking task)
  complete _ hchanged := absurd (congrFun hmirrors _) hchanged

/-- A step that changes a mirror's directories. -/
theorem Frame.of_mirrors (hprocs : ∀ q ≠ p, s'.procs q = s.procs q)
    (hlocks : ∀ q ≠ p, ∀ lock mode, s'.Holds q lock mode ↔ s.Holds q lock mode)
    (hsrc : s'.src = s.src) (hheld : s.Holds p (.mirror hash) .exclusive)
    (hmirrors : ∀ entry, isTemp (mirrorStem hash) entry = false → entry ≠ mirrorFile hash →
      s'.mirrors entry = s.mirrors entry)
    (hfile : s'.mirrors (mirrorFile hash) = s.mirrors (mirrorFile hash) ∨
      s'.mirrors (mirrorFile hash) = some true)
    (hunlinking : ∀ task, (s.procs p).call ≠ some (task, .unlinking)) : Frame repository s s' p where
  procs := hprocs
  locks := hlocks
  src entry hchanged := absurd (congrFun hsrc entry) hchanged
  mirrors entry hchanged := by
    refine ⟨hash, hheld, ?_⟩
    by_contra hother
    rw [not_or] at hother
    exact hchanged (hmirrors entry (Bool.eq_false_iff.mpr hother.1) hother.2)
  whole name _ hchanged := absurd (congrFun hsrc name) hchanged
  unlinking task hcall := absurd hcall (hunlinking task)
  complete other hchanged := by
    rcases eq_or_ne other hash with rfl | hne
    · exact hfile.resolve_left hchanged
    · exact absurd (hmirrors _ not_isTemp_mirrorFile fun heq ↦ hne (mirrorFile_injective heq)) hchanged

/-- A step that changes a checkout which is not leased to another process, and temporary directories. -/
theorem Frame.of_checkout (hprocs : ∀ q ≠ p, s'.procs q = s.procs q)
    (hlocks : ∀ q ≠ p, ∀ lock mode, s'.Holds q lock mode ↔ s.Holds q lock mode)
    (hmirrors : s'.mirrors = s.mirrors) (hcall : (s.procs p).call = some (task, phase))
    (hname : tempLike task.name = false) (hheld : s.Holds p (.checkout task.name) .exclusive)
    (hlease : s.Holds p (.lease task.name) .exclusive ∨ s.src task.name = none)
    (hsrc : ∀ entry, isTemp (checkoutStem task.name) entry = false → entry ≠ task.name →
      s'.src entry = s.src entry)
    (hwhole : s'.src task.name = none ∨ (∃ rev, s'.src task.name = some (repository.checkout rev)) ∨
      (s'.procs p).call = some (task, .unlinking))
    (hunlinking : phase = .unlinking → (s'.procs p).call = some (task, .unlinking) ∨
      s'.src task.name = none) : Frame repository s s' p where
  procs := hprocs
  locks := hlocks
  src entry hchanged := by
    by_cases htemp : isTemp (checkoutStem task.name) entry
    · exact .inl ⟨task.name, hheld, htemp⟩
    · have hentry : entry = task.name := by
        by_contra hne
        exact hchanged (hsrc entry (Bool.eq_false_iff.mpr htemp) hne)
      subst hentry
      exact .inr ⟨hname, hheld, hlease⟩
  mirrors entry hchanged := absurd (congrFun hmirrors entry) hchanged
  whole other hother hchanged := by
    have hentry : other = task.name := by
      by_contra hne
      refine hchanged (hsrc other (Bool.eq_false_iff.mpr fun htemp ↦ ?_) hne)
      exact absurd (tempLike_of_isTemp htemp) (Bool.eq_false_iff.mp hother)
    subst hentry
    rcases hwhole with hnone | hrev | hcall'
    · exact .inl hnone
    · exact .inr (.inl hrev)
    · exact .inr (.inr ⟨p, task, hcall', rfl⟩)
  unlinking other hother := by
    cases hcall.symm.trans hother
    exact hunlinking rfl
  complete _ hchanged := absurd (congrFun hmirrors _) hchanged

/-- A process goes on in its call, with the leases that it has. -/
theorem ProcOk.next (h : ProcOk repository s p) (hleases : (s'.procs p).leases = (s.procs p).leases)
    (hgiven : (s'.procs p).given = (s.procs p).given)
    (hcall : (s'.procs p).call = some (task, phase)) (hok : CallOk repository s' p task phase)
    (hlocks : ∀ name ∈ (s.procs p).leases, s.Holds p (.lease name) .shared →
      s'.Holds p (.lease name) .shared)
    (hsrc : ∀ name ∈ (s.procs p).leases, tempLike name = false → s'.src name = s.src name) :
    ProcOk repository s' p where
  leases name hname := by
    rw [hleases] at hname
    exact hlocks name hname (h.leases name hname)
  given name rev hname := by
    rw [hgiven] at hname
    obtain ⟨hlike, hlease, htree⟩ := h.given name rev hname
    exact ⟨hlike, hleases ▸ hlease, (hsrc name hlease hlike).trans htree⟩
  call other otherPhase hother := by
    cases hcall.symm.trans hother
    exact hok

/-- A process that has ended holds nothing. -/
theorem ProcOk.fresh (h : s.procs p = .fresh) : ProcOk repository s p where
  leases name hname := by
    rw [h] at hname
    cases hname
  given name rev hgiven := by
    rw [h] at hgiven
    cases hgiven
  call task phase hcall := by
    rw [h] at hcall
    cases hcall

/-- A process goes on in its call. -/
theorem CallOk.goto {next : Phase} (h : CallOk repository s p task phase) :
    CallOk repository (s.goto p task next) p task phase :=
  { h with
    dropped := fun hphase ↦ by rw [State.goto_leases]; exact h.dropped hphase
    leased := fun hphase ↦ by rw [State.goto_leases]; exact h.leased hphase }

/-- What is known of a process and of what it leaves alone when it takes a step. -/
structure Keeps (repository : Repository) (s s' : State) (p : ℕ) : Prop where
  frame : Frame repository s s' p
  ok : ProcOk repository s' p

/-- The lock of a checkout or a mirror, or a lease that is not noted. -/
def Unnoted (s : State) (p : ℕ) (lock : Lock) : Prop := ∀ name ∈ (s.procs p).leases, lock ≠ .lease name

/-- Only the place in a call changes. -/
theorem keeps_goto {next : Phase} (h : ProcOk repository s p)
    (hcall : (s.procs p).call = some (task, phase)) (hphase : phase ≠ .unlinking)
    (hnext : CallOk repository s p task next) : Keeps repository s (s.goto p task next) p where
  frame := .of_locks (fun _ hne ↦ State.goto_procs hne) (fun _ _ _ _ ↦ .rfl) rfl rfl fun other hother ↦ by
    cases hcall.symm.trans hother
    exact hphase rfl
  ok := h.next State.goto_leases State.goto_given State.goto_call hnext.goto (fun _ _ hlock ↦ hlock)
    fun _ _ _ ↦ rfl

/-- A lock is got. -/
theorem keeps_acquire {t : State} {next : Phase} {lock : Lock} {mode : LockMode}
    (h : ProcOk repository s p) (hcall : (s.procs p).call = some (task, phase))
    (hphase : phase ≠ .unlinking) (hacquire : s.acquire p lock mode = some t)
    (hlock : Unnoted s p lock) (hnext : t.Holds p lock mode →
      (∀ other mode', other ≠ lock → (t.Holds p other mode' ↔ s.Holds p other mode')) →
        CallOk repository t p task next) : Keeps repository s (t.goto p task next) p := by
  obtain ⟨locks, hlocks, rfl⟩ := Option.map_eq_some_iff.mp hacquire
  have hothers : ∀ other mode', other ≠ lock →
      (State.Holds { s with locks := locks } p other mode' ↔ s.Holds p other mode') :=
    fun other mode' hother ↦ LockTable.mem_acquire_iff hlocks (.inr hother)
  refine ⟨.of_locks (fun q hne ↦ ?_) (fun q hne other mode' ↦ ?_) rfl rfl fun other hother ↦ ?_, ?_⟩
  · exact State.goto_procs hne
  · exact LockTable.mem_acquire_iff hlocks (.inl hne)
  · cases hcall.symm.trans hother
    exact hphase rfl
  · have hcallOk := hnext (LockTable.mem_of_acquire hlocks) hothers
    exact h.next State.goto_leases State.goto_given State.goto_call hcallOk.goto
      (fun name hname hheld ↦ (hothers _ _ (hlock name hname).symm).mpr hheld) fun _ _ _ ↦ rfl

/-- A lock is given up. -/
theorem keeps_close {next : Phase} {lock : Lock} (h : ProcOk repository s p)
    (hcall : (s.procs p).call = some (task, phase)) (hphase : phase ≠ .unlinking)
    (hlock : Unnoted s p lock) (hnext : (∀ other mode', other ≠ lock →
      ((s.close p lock).Holds p other mode' ↔ s.Holds p other mode')) →
        CallOk repository (s.close p lock) p task next) :
    Keeps repository s ((s.close p lock).goto p task next) p := by
  have hothers : ∀ other mode', other ≠ lock →
      ((s.close p lock).Holds p other mode' ↔ s.Holds p other mode') :=
    fun other mode' hother ↦ LockTable.mem_close_iff (.inr hother)
  refine ⟨.of_locks (fun q hne ↦ ?_) (fun q hne other mode' ↦ ?_) rfl rfl fun other hother ↦ ?_, ?_⟩
  · exact State.goto_procs hne
  · exact LockTable.mem_close_iff (.inl hne)
  · cases hcall.symm.trans hother
    exact hphase rfl
  · exact h.next State.goto_leases State.goto_given State.goto_call (hnext hothers).goto
      (fun name hname hheld ↦ (hothers _ _ (hlock name hname).symm).mpr hheld) fun _ _ _ ↦ rfl

/-- A process ends, and changes nothing else. -/
theorem keeps_exit (hphase : ∀ task, (s.procs p).call ≠ some (task, .unlinking)) :
    Keeps repository s (s.exit p) p where
  frame := .of_locks (fun _ hne ↦ State.exit_procs hne) (fun _ hne _ _ ↦ LockTable.mem_exit_iff hne) rfl rfl
    hphase
  ok := .fresh (Function.update_self ..)

theorem unnoted_checkout : Unnoted s p (.checkout name) := fun _ _ ↦ Lock.noConfusion

theorem unnoted_mirror : Unnoted s p (.mirror hash) := fun _ _ ↦ Lock.noConfusion

theorem unnoted_lease (h : name ∉ (s.procs p).leases) : Unnoted s p (.lease name) := by
  rintro other hother heq
  cases heq
  exact h hother

/-- A lease that a process holds, or has just acquired, is noted. -/
theorem keeps_holdLease {t : State} {next : Phase} (h : ProcOk repository s p)
    (hcall : (s.procs p).call = some (task, phase)) (hphase : phase ≠ .unlinking)
    (hlease : s.holdLease p task.name = some t)
    (hnext : (∀ name mode, t.Holds p (.checkout name) mode ↔ s.Holds p (.checkout name) mode) →
      task.name ∈ (t.procs p).leases → t.src = s.src → CallOk repository t p task next) :
    Keeps repository s (t.goto p task next) p := by
  rw [State.holdLease] at hlease
  split_ifs at hlease with hnoted
  · cases hlease
    exact keeps_goto h hcall hphase (hnext (fun _ _ ↦ .rfl) hnoted rfl)
  · obtain ⟨t', hacquire, rfl⟩ := Option.map_eq_some_iff.mp hlease
    obtain ⟨locks, hlocks, rfl⟩ := Option.map_eq_some_iff.mp hacquire
    dsimp only at hnext ⊢
    set t := State.setLeases { s with locks := locks } p (task.name :: (s.procs p).leases) with ht
    have hleases : (t.procs p).leases = task.name :: (s.procs p).leases := by
      simp [ht, State.setLeases]
    have hgiven : (t.procs p).given = (s.procs p).given := by simp [ht, State.setLeases]
    have hothers : ∀ other mode', other ≠ .lease task.name →
        (t.Holds p other mode' ↔ s.Holds p other mode') :=
      fun other mode' hother ↦ LockTable.mem_acquire_iff hlocks (.inr hother)
    refine ⟨.of_locks (fun q hne ↦ ?_) (fun q hne other mode' ↦ ?_) rfl rfl fun other hother ↦ ?_, ?_⟩
    · rw [State.goto_procs hne]
      exact Function.update_of_ne hne ..
    · exact LockTable.mem_acquire_iff hlocks (.inl hne)
    · cases hcall.symm.trans hother
      exact hphase rfl
    · refine ⟨fun name hname ↦ ?_, fun name rev hname ↦ ?_, fun other otherPhase hother ↦ ?_⟩
      · rw [State.goto_leases, hleases] at hname
        rcases eq_or_ne name task.name with rfl | hne
        · exact LockTable.mem_of_acquire hlocks
        · have hold := (List.mem_cons.mp hname).resolve_left hne
          exact (hothers _ _ fun heq ↦ hne (Lock.lease.inj heq)).mpr (h.leases name hold)
      · rw [State.goto_given, hgiven] at hname
        obtain ⟨hlike, hold, htree⟩ := h.given name rev hname
        rw [State.goto_leases, hleases]
        exact ⟨hlike, List.mem_cons_of_mem _ hold, htree⟩
      · rw [State.goto_call] at hother
        cases hother
        refine (hnext (fun name mode ↦ hothers _ _ Lock.noConfusion) ?_ rfl).goto
        rw [hleases]
        exact List.mem_cons_self

/-- A lease is given up on a checkout that the process was not given. -/
theorem keeps_dropLease {next : Phase} (h : ProcOk repository s p)
    (hcall : (s.procs p).call = some (task, phase)) (hphase : phase ≠ .unlinking)
    (hgiven : (s.procs p).given task.name = none)
    (hnext : CallOk repository (s.dropLease p task.name) p task next) :
    Keeps repository s ((s.dropLease p task.name).goto p task next) p := by
  set t := s.dropLease p task.name with ht
  have hleases : (t.procs p).leases = (s.procs p).leases.filter (· ≠ task.name) := by
    simp [ht, State.dropLease, State.setLeases]
  have hsame : (t.procs p).given = (s.procs p).given := by
    simp [ht, State.dropLease, State.setLeases, State.close]
  refine ⟨.of_locks (fun q hne ↦ ?_) (fun q hne other mode' ↦ ?_) rfl rfl fun other hother ↦ ?_, ?_⟩
  · rw [State.goto_procs hne]
    exact Function.update_of_ne hne ..
  · exact LockTable.mem_close_iff (.inl hne)
  · cases hcall.symm.trans hother
    exact hphase rfl
  · refine ⟨fun name hname ↦ ?_, fun name rev hname ↦ ?_, fun other otherPhase hother ↦ ?_⟩
    · rw [State.goto_leases, hleases] at hname
      obtain ⟨hold, hne⟩ := List.mem_filter.mp hname
      refine (LockTable.mem_close_iff (.inr fun heq ↦ ?_)).mpr (h.leases name hold)
      exact of_decide_eq_true hne (Lock.lease.inj heq)
    · rw [State.goto_given, hsame] at hname
      obtain ⟨hlike, hold, htree⟩ := h.given name rev hname
      rw [State.goto_leases, hleases]
      refine ⟨hlike, List.mem_filter.mpr ⟨hold, decide_eq_true ?_⟩, htree⟩
      rintro rfl
      cases hgiven.symm.trans hname
    · rw [State.goto_call] at hother
      cases hother
      exact hnext.goto

/-- A checkout that is in its place under a lease is given to the process. -/
theorem keeps_give {t : State} (h : ProcOk repository s p) (hcall : (s.procs p).call = some (task, phase))
    (hphase : phase ≠ .unlinking) (hname : tempLike task.name = false)
    (hlease : task.name ∈ (s.procs p).leases) (hplaced : s.src task.name = some (repository.checkout task.rev))
    (hlocks : ∀ q lock mode, (q ≠ p ∨ ∀ name, lock ≠ .checkout name) →
      (t.Holds q lock mode ↔ s.Holds q lock mode))
    (hsrc : t.src = s.src) (hmirrors : t.mirrors = s.mirrors) (hprocs : t.procs = s.procs) :
    Keeps repository s (t.give p task) p := by
  have hproc : (t.give p task).procs p = { s.procs p with
      call := none, given := Function.update (s.procs p).given task.name (some task.rev) } := by
    simp [State.give, hprocs]
  refine ⟨.of_locks (fun q hne ↦ ?_) (fun q hne other mode' ↦ hlocks q other mode' (.inl hne)) hsrc hmirrors
    fun other hother ↦ ?_, ?_⟩
  · rw [State.give_procs hne, hprocs]
  · cases hcall.symm.trans hother
    exact hphase rfl
  · refine ⟨fun name hnoted ↦ ?_, fun name rev hgiven ↦ ?_, fun other otherPhase hother ↦ ?_⟩
    · rw [hproc] at hnoted
      exact (hlocks p _ _ (.inr fun _ ↦ Lock.noConfusion)).mpr (h.leases name hnoted)
    · show _ ∧ _ ∧ t.src name = _
      rw [hproc] at hgiven ⊢
      rw [hsrc]
      rcases eq_or_ne name task.name with rfl | hne
      · dsimp only at hgiven
        rw [Function.update_self] at hgiven
        exact ⟨hname, hlease, Option.some.inj hgiven ▸ hplaced⟩
      · dsimp only at hgiven
        rw [Function.update_of_ne hne] at hgiven
        exact h.given name rev hgiven
    · rw [hproc] at hother
      cases hother

/-- A checkout whose HEAD is at a commit is the complete one, if no process is removing it. -/
theorem placed_of_pinned {rev : Text} (hinv : Inv repository s) (hname : tempLike name = false)
    (hunlinking : ¬s.Unlinking name) (hpinned : s.materializedHead name = some rev) :
    s.src name = some (repository.checkout rev) := by
  obtain ⟨tree, htree, hhead⟩ := Option.bind_eq_some_iff.mp hpinned
  obtain ⟨old, rfl⟩ := (hinv.whole name tree hname htree).resolve_right hunlinking
  cases hhead
  rw [htree, Repository.checkout, Repository.checkout, repository.peel_peel]

/-- No process removes a checkout while another has its lock or a lease on it. -/
theorem not_unlinking (hinv : Inv repository s) {lock : Lock} {mode : LockMode}
    (hlock : lock = .checkout name ∨ lock = .lease name) (hheld : s.Holds p lock mode)
    (hphase : ∀ task, (s.procs p).call ≠ some (task, .unlinking)) : ¬s.Unlinking name := by
  rintro ⟨q, task, hcall, rfl⟩
  have hok := (hinv.procs q).call task _ hcall
  have hsame : p = q := by
    rcases hlock with rfl | rfl
    · exact (hok.locked rfl).ne hheld
    · exact (hok.exclusive rfl).ne hheld
  exact hphase task (hsame ▸ hcall)

/-! ### Every step -/

/-- A step before the checkout's lock is held. -/
theorem keeps_unlocked {ok : Bool} (hinv : Inv repository s)
    (hcall : (s.procs p).call = some (task, phase)) (hphase : phase.locked = false)
    (hgiven : phase = .dropping → (s.procs p).given task.name = none)
    (hstep : go repository s p task ok phase = some s') : Keeps repository s s' p := by
  have h := hinv.procs p
  have hok := h.call task phase hcall
  cases phase with
  | checking =>
    cases hstep
    refine keeps_goto h hcall nofun ?_
    split_ifs
    · exact { named := hok.named }
    · exact { named := hok.named }
  | leasing =>
    obtain ⟨t, hlease, rfl⟩ := Option.map_eq_some_iff.mp hstep
    exact keeps_holdLease h hcall nofun hlease fun _ hnoted _ ↦
      { named := hok.named, leased := fun _ ↦ hnoted }
  | rechecking =>
    rw [go] at hstep
    split_ifs at hstep with hpinned
    · cases hstep
      have hnoted := hok.leased rfl
      have hunlinking : ¬s.Unlinking task.name := not_unlinking hinv (.inr rfl) (h.leases _ hnoted)
        fun other hother ↦ by cases hcall.symm.trans hother
      exact keeps_give h hcall nofun hok.named hnoted (placed_of_pinned hinv hok.named hunlinking hpinned)
        (fun _ _ _ _ ↦ .rfl) rfl rfl rfl
    · cases hstep
      exact keeps_goto h hcall nofun { named := hok.named }
  | dropping =>
    cases hstep
    refine keeps_dropLease h hcall nofun (hgiven rfl) { named := hok.named, dropped := fun _ hmem ↦ ?_ }
    have hleases : ((s.dropLease p task.name).procs p).leases =
        (s.procs p).leases.filter (· ≠ task.name) := by
      simp [State.dropLease, State.setLeases]
    rw [hleases] at hmem
    exact absurd rfl (of_decide_eq_true (List.mem_filter.mp hmem).2)
  | locking =>
    obtain ⟨t, hacquire, rfl⟩ := Option.map_eq_some_iff.mp hstep
    refine keeps_acquire h hcall nofun hacquire unnoted_checkout fun hheld _ ↦
      { named := hok.named, locked := fun _ ↦ hheld, dropped := fun _ ↦ ?_ }
    obtain ⟨locks, -, rfl⟩ := Option.map_eq_some_iff.mp hacquire
    exact hok.dropped rfl
  | _ => cases hphase

/-- A step while the mirror's lock is held or is to be. -/
theorem keeps_mirror {ok : Bool} (hinv : Inv repository s)
    (hcall : (s.procs p).call = some (task, phase))
    (hphase : phase = .lockedChecking ∨ phase = .lookingForCommit ∨ phase = .lockingMirror ∨ phase.mirrorHeld)
    (hstep : go repository s p task ok phase = some s') : Keeps repository s s' p := by
  have h := hinv.procs p
  have hok := h.call task phase hcall
  have hunlinking : ∀ other, (s.procs p).call ≠ some (other, .unlinking) := by
    intro other hother
    cases hcall.symm.trans hother
    rcases hphase with hphase | hphase | hphase | hphase <;> cases hphase
  have htemp : ∀ entry, isTemp (mirrorStem task.hash) entry = false →
      entry ≠ tempEntry (mirrorStem task.hash) p := by
    rintro entry hentry rfl
    exact absurd isTemp_tempEntry (Bool.eq_false_iff.mp hentry)
  have hfile : mirrorFile task.hash ≠ tempEntry (mirrorStem task.hash) p := htemp _ not_isTemp_mirrorFile
  cases phase with
  | lockedChecking =>
    cases hstep
    refine keeps_goto h hcall nofun ?_
    split_ifs with hpinned
    · have hnot := not_unlinking hinv (.inl rfl) (hok.locked rfl) hunlinking
      exact { named := hok.named, locked := fun _ ↦ hok.locked rfl, dropped := fun _ ↦ hok.dropped rfl,
              placed := fun _ ↦ placed_of_pinned hinv hok.named hnot hpinned }
    · exact { named := hok.named, locked := fun _ ↦ hok.locked rfl, dropped := fun _ ↦ hok.dropped rfl }
  | lookingForCommit =>
    cases hstep
    refine keeps_goto h hcall nofun ?_
    split_ifs
    · exact { named := hok.named, locked := fun _ ↦ hok.locked rfl, dropped := fun _ ↦ hok.dropped rfl }
    · exact { named := hok.named, locked := fun _ ↦ hok.locked rfl, dropped := fun _ ↦ hok.dropped rfl }
  | lockingMirror =>
    obtain ⟨t, hacquire, rfl⟩ := Option.map_eq_some_iff.mp hstep
    refine keeps_acquire h hcall nofun hacquire unnoted_mirror fun hheld hothers ↦
      { named := hok.named
        locked := fun _ ↦ (hothers _ _ Lock.noConfusion).mpr (hok.locked rfl)
        mirrorHeld := fun _ ↦ hheld
        dropped := fun _ ↦ ?_ }
    obtain ⟨locks, -, rfl⟩ := Option.map_eq_some_iff.mp hacquire
    exact hok.dropped rfl
  | mirrorLocked =>
    cases hstep
    refine keeps_goto h hcall nofun ?_
    split_ifs
    · exact { named := hok.named, locked := fun _ ↦ hok.locked rfl, dropped := fun _ ↦ hok.dropped rfl,
              mirrorHeld := fun _ ↦ hok.mirrorHeld rfl }
    · exact { named := hok.named, locked := fun _ ↦ hok.locked rfl, dropped := fun _ ↦ hok.dropped rfl,
              mirrorHeld := fun _ ↦ hok.mirrorHeld rfl }
  | clearingMirror =>
    cases hstep
    refine ⟨.of_mirrors (fun _ hne ↦ State.goto_procs hne) (fun _ _ _ _ ↦ .rfl) rfl (hok.mirrorHeld rfl)
      (fun entry hentry _ ↦ ?_) (.inl ?_) hunlinking, ?_⟩
    · exact if_neg (Bool.eq_false_iff.mp hentry)
    · exact if_neg (Bool.eq_false_iff.mp not_isTemp_mirrorFile)
    · refine h.next State.goto_leases State.goto_given State.goto_call (CallOk.goto ?_) (fun _ _ hlock ↦ hlock)
        fun _ _ _ ↦ rfl
      exact { named := hok.named, locked := fun _ ↦ hok.locked rfl, dropped := fun _ ↦ hok.dropped rfl,
              mirrorHeld := fun _ ↦ hok.mirrorHeld rfl }
  | startingMirror =>
    cases hstep
    refine ⟨.of_mirrors (fun _ hne ↦ State.goto_procs hne) (fun _ _ _ _ ↦ .rfl) rfl (hok.mirrorHeld rfl)
      (fun entry hentry _ ↦ Function.update_of_ne (htemp entry hentry) ..)
      (.inl (Function.update_of_ne hfile ..)) hunlinking, ?_⟩
    refine h.next State.goto_leases State.goto_given State.goto_call (CallOk.goto ?_) (fun _ _ hlock ↦ hlock)
      fun _ _ _ ↦ rfl
    exact { named := hok.named, locked := fun _ ↦ hok.locked rfl, dropped := fun _ ↦ hok.dropped rfl,
            mirrorHeld := fun _ ↦ hok.mirrorHeld rfl,
            mirrorCloning := fun _ ↦ by simp [State.setMirror] }
  | cloningMirror =>
    rw [go] at hstep
    split_ifs at hstep
    · cases hstep
      refine ⟨.of_mirrors (fun _ hne ↦ State.goto_procs hne) (fun _ _ _ _ ↦ .rfl) rfl (hok.mirrorHeld rfl)
        (fun entry hentry _ ↦ Function.update_of_ne (htemp entry hentry) ..)
        (.inl (Function.update_of_ne hfile ..)) hunlinking, ?_⟩
      refine h.next State.goto_leases State.goto_given State.goto_call (CallOk.goto ?_) (fun _ _ hlock ↦ hlock)
        fun _ _ _ ↦ rfl
      exact { named := hok.named, locked := fun _ ↦ hok.locked rfl, dropped := fun _ ↦ hok.dropped rfl,
              mirrorHeld := fun _ ↦ hok.mirrorHeld rfl,
              mirrorCloned := fun _ ↦ by simp [State.setMirror] }
    · cases hstep
      exact keeps_goto h hcall nofun
        { named := hok.named, locked := fun _ ↦ hok.locked rfl, dropped := fun _ ↦ hok.dropped rfl,
          mirrorHeld := fun _ ↦ hok.mirrorHeld rfl }
  | renamingMirror =>
    rw [go] at hstep
    split_ifs at hstep
    · cases hstep
      refine ⟨.of_mirrors (fun _ hne ↦ State.goto_procs hne) (fun _ _ _ _ ↦ .rfl) rfl (hok.mirrorHeld rfl)
        (fun entry hentry hne ↦ ?_) (.inr ?_) hunlinking, ?_⟩
      · exact (Function.update_of_ne (htemp entry hentry) ..).trans (Function.update_of_ne hne ..)
      · refine (Function.update_of_ne hfile ..).trans ?_
        exact (Function.update_self ..).trans (hok.mirrorCloned rfl)
      · refine h.next State.goto_leases State.goto_given State.goto_call (CallOk.goto ?_)
          (fun _ _ hlock ↦ hlock) fun _ _ _ ↦ rfl
        exact { named := hok.named, locked := fun _ ↦ hok.locked rfl, dropped := fun _ ↦ hok.dropped rfl,
                mirrorHeld := fun _ ↦ hok.mirrorHeld rfl }
    · cases hstep
      exact keeps_goto h hcall nofun
        { named := hok.named, locked := fun _ ↦ hok.locked rfl, dropped := fun _ ↦ hok.dropped rfl,
          mirrorHeld := fun _ ↦ hok.mirrorHeld rfl }
  | fetching =>
    rw [go] at hstep
    split_ifs at hstep
    · cases hstep
      exact keeps_close h hcall nofun unnoted_mirror fun hothers ↦
        { named := hok.named
          locked := fun _ ↦ (hothers _ _ Lock.noConfusion).mpr (hok.locked rfl)
          dropped := fun _ ↦ hok.dropped rfl }
    · cases hstep
      exact keeps_exit hunlinking
  | abandoningMirror =>
    cases hstep
    refine ⟨.of_mirrors (fun _ hne ↦ State.exit_procs hne) (fun _ hne _ _ ↦ LockTable.mem_exit_iff hne) rfl
      (hok.mirrorHeld rfl) (fun entry hentry _ ↦ Function.update_of_ne (htemp entry hentry) ..)
      (.inl (Function.update_of_ne hfile ..)) hunlinking, .fresh (Function.update_self ..)⟩
  | _ => simp [Phase.mirrorHeld] at hphase

/-- A step that makes or removes a clone of the checkout. -/
theorem keeps_clone {ok : Bool} (hinv : Inv repository s)
    (hcall : (s.procs p).call = some (task, phase))
    (hphase : phase = .clearing ∨ phase = .starting ∨ phase = .cloning ∨
      ∃ removed, phase = .abandoning removed)
    (hstep : go repository s p task ok phase = some s') : Keeps repository s s' p := by
  have h := hinv.procs p
  have hok := h.call task phase hcall
  have hunlinking : ∀ other, (s.procs p).call ≠ some (other, .unlinking) := by
    intro other hother
    cases hcall.symm.trans hother
    rcases hphase with hphase | hphase | hphase | ⟨removed, hphase⟩ <;> cases hphase
  have htemp : ∀ entry, isTemp (checkoutStem task.name) entry = false →
      entry ≠ tempEntry (checkoutStem task.name) p := by
    rintro entry hentry rfl
    exact absurd isTemp_tempEntry (Bool.eq_false_iff.mp hentry)
  have hother : ∀ name, tempLike name = false → isTemp (checkoutStem task.name) name = false := fun name hname ↦
    Bool.eq_false_iff.mpr fun hentry ↦ absurd (tempLike_of_isTemp hentry) (Bool.eq_false_iff.mp hname)
  rcases hphase with rfl | rfl | rfl | ⟨removed, rfl⟩
  · cases hstep
    refine ⟨.of_temps (fun _ hne ↦ State.goto_procs hne) (fun _ _ _ _ ↦ .rfl) rfl (hok.locked rfl)
      (fun entry hentry ↦ if_neg (Bool.eq_false_iff.mp hentry)) hunlinking, ?_⟩
    refine h.next State.goto_leases State.goto_given State.goto_call (CallOk.goto ?_) (fun _ _ hlock ↦ hlock)
      fun name _ hname ↦ if_neg (Bool.eq_false_iff.mp (hother name hname))
    exact { named := hok.named, locked := fun _ ↦ hok.locked rfl, dropped := fun _ ↦ hok.dropped rfl }
  · cases hstep
    refine ⟨.of_temps (fun _ hne ↦ State.goto_procs hne) (fun _ _ _ _ ↦ .rfl) rfl (hok.locked rfl)
      (fun entry hentry ↦ Function.update_of_ne (htemp entry hentry) ..) hunlinking, ?_⟩
    refine h.next State.goto_leases State.goto_given State.goto_call (CallOk.goto ?_) (fun _ _ hlock ↦ hlock)
      fun name _ hname ↦ Function.update_of_ne (htemp name (hother name hname)) ..
    exact { named := hok.named, locked := fun _ ↦ hok.locked rfl, dropped := fun _ ↦ hok.dropped rfl,
            cloning := fun _ ↦ by simp [State.setSrc] }
  · rw [go] at hstep
    split_ifs at hstep
    · cases hstep
      refine ⟨.of_temps (fun _ hne ↦ State.goto_procs hne) (fun _ _ _ _ ↦ .rfl) rfl (hok.locked rfl)
        (fun entry hentry ↦ Function.update_of_ne (htemp entry hentry) ..) hunlinking, ?_⟩
      refine h.next State.goto_leases State.goto_given State.goto_call (CallOk.goto ?_) (fun _ _ hlock ↦ hlock)
        fun name _ hname ↦ Function.update_of_ne (htemp name (hother name hname)) ..
      exact { named := hok.named, locked := fun _ ↦ hok.locked rfl, dropped := fun _ ↦ hok.dropped rfl,
              cloned := fun _ ↦ by simp [State.setSrc] }
    · cases hstep
      exact keeps_goto h hcall nofun
        { named := hok.named, locked := fun _ ↦ hok.locked rfl, dropped := fun _ ↦ hok.dropped rfl }
  · cases hstep
    exact ⟨.of_temps (fun _ hne ↦ State.exit_procs hne) (fun _ hne _ _ ↦ LockTable.mem_exit_iff hne) rfl
      (hok.locked rfl) (fun entry hentry ↦ Function.update_of_ne (htemp entry hentry) ..) hunlinking,
      .fresh (Function.update_self ..)⟩

/-- The place of a checkout after a complete clone has been moved there. -/
theorem place_src (hname : tempLike task.name = false)
    (hcloned : s.src (tempEntry (checkoutStem task.name) p) = some (repository.checkout task.rev)) :
    (s.place p task.name).src task.name = some (repository.checkout task.rev) ∧
      ∀ entry, entry ≠ task.name → entry ≠ tempEntry (checkoutStem task.name) p →
        (s.place p task.name).src entry = s.src entry := by
  have hne : task.name ≠ tempEntry (checkoutStem task.name) p := by
    intro heq
    have hlike := tempLike_of_isTemp (@isTemp_tempEntry (checkoutStem task.name) p)
    rw [← heq, hname] at hlike
    cases hlike
  refine ⟨?_, fun entry hentry htemp ↦ ?_⟩
  · exact (Function.update_of_ne hne ..).trans ((Function.update_self ..).trans hcloned)
  · exact (Function.update_of_ne htemp ..).trans (Function.update_of_ne hentry ..)

/-- The tree in a checkout's place is removed, in whole. -/
theorem keeps_removed (h : ProcOk repository s p) (hcall : (s.procs p).call = some (task, phase))
    (hphase : phase = .removing ∨ phase = .unlinking) :
    Keeps repository s ((s.setSrc task.name none).goto p task .moving) p := by
  have hok := h.call task phase hcall
  have hlocked : s.Holds p (.checkout task.name) .exclusive := hok.locked (by rcases hphase with rfl | rfl <;> rfl)
  have hlease : s.Holds p (.lease task.name) .exclusive := hok.exclusive (by rcases hphase with rfl | rfl <;> rfl)
  have hdropped : task.name ∉ (s.procs p).leases := hok.dropped (by rcases hphase with rfl | rfl <;> rfl)
  have hcloned := hok.cloned (by rcases hphase with rfl | rfl <;> rfl)
  have hnone : (s.setSrc task.name none).src task.name = none := Function.update_self ..
  refine ⟨.of_checkout (fun _ hne ↦ State.goto_procs hne) (fun _ _ _ _ ↦ .rfl) rfl hcall hok.named hlocked
    (.inl hlease) (fun entry _ hne ↦ Function.update_of_ne hne ..) (.inl hnone) (fun _ ↦ .inr hnone), ?_⟩
  refine h.next State.goto_leases State.goto_given State.goto_call (CallOk.goto ?_) (fun _ _ hlock ↦ hlock)
    fun name hname _ ↦ Function.update_of_ne (show name ≠ task.name from fun heq ↦ hdropped (heq ▸ hname)) ..
  have hne : tempEntry (checkoutStem task.name) p ≠ task.name := by
    intro heq
    have hlike := tempLike_of_isTemp (@isTemp_tempEntry (checkoutStem task.name) p)
    rw [heq, hok.named] at hlike
    cases hlike
  exact {
    named := hok.named
    locked := fun _ ↦ hlocked
    dropped := fun _ ↦ hdropped
    cloned := fun _ ↦ (Function.update_of_ne hne ..).trans hcloned
    exclusive := fun _ ↦ hlease
    absent := fun _ ↦ hnone }

/-- A file of the tree is removed. -/
theorem keeps_unlink {file : Option Text} (h : ProcOk repository s p) (hstep : unlink s p file = some s') :
    Keeps repository s s' p := by
  have hkeep : ∀ {task phase}, (s.procs p).call = some (task, phase) → phase = .removing ∨ phase = .unlinking →
      ∀ tree, Keeps repository s ((s.setSrc task.name (some tree)).goto p task .unlinking) p := by
    intro task phase hcall hphase tree
    have hok := h.call task phase hcall
    have hlocked : s.Holds p (.checkout task.name) .exclusive :=
      hok.locked (by rcases hphase with rfl | rfl <;> rfl)
    have hlease : s.Holds p (.lease task.name) .exclusive :=
      hok.exclusive (by rcases hphase with rfl | rfl <;> rfl)
    have hdropped : task.name ∉ (s.procs p).leases := hok.dropped (by rcases hphase with rfl | rfl <;> rfl)
    have hcloned := hok.cloned (by rcases hphase with rfl | rfl <;> rfl)
    have hne : tempEntry (checkoutStem task.name) p ≠ task.name := by
      intro heq
      have hlike := tempLike_of_isTemp (@isTemp_tempEntry (checkoutStem task.name) p)
      rw [heq, hok.named] at hlike
      cases hlike
    refine ⟨.of_checkout (fun _ hne ↦ State.goto_procs hne) (fun _ _ _ _ ↦ .rfl) rfl hcall hok.named hlocked
      (.inl hlease) (fun entry _ hne ↦ Function.update_of_ne hne ..) (.inr (.inr State.goto_call))
      (fun _ ↦ .inl State.goto_call), ?_⟩
    refine h.next State.goto_leases State.goto_given State.goto_call (CallOk.goto ?_) (fun _ _ hlock ↦ hlock)
      fun name hname _ ↦ Function.update_of_ne (show name ≠ task.name from fun heq ↦ hdropped (heq ▸ hname)) ..
    exact {
      named := hok.named
      locked := fun _ ↦ hlocked
      dropped := fun _ ↦ hdropped
      cloned := fun _ ↦ (Function.update_of_ne hne ..).trans hcloned
      exclusive := fun _ ↦ hlease }
  rw [unlink] at hstep
  split at hstep
  · next task hcall =>
    obtain ⟨tree, -, rfl⟩ := Option.map_eq_some_iff.mp hstep
    exact hkeep hcall (.inl rfl) _
  · next task hcall =>
    obtain ⟨tree, -, rfl⟩ := Option.map_eq_some_iff.mp hstep
    exact hkeep hcall (.inr rfl) _
  · cases hstep

/-- A step that puts the checkout in its place and gives it to the process. -/
theorem keeps_publish {ok : Bool} (hinv : Inv repository s)
    (hcall : (s.procs p).call = some (task, phase))
    (hphase : phase = .publishing ∨ phase.exclusive ∨ phase.placed)
    (hfail : phase = .unlinking → ok = true)
    (hstep : go repository s p task ok phase = some s') : Keeps repository s s' p := by
  have h := hinv.procs p
  have hok := h.call task phase hcall
  have hfresh : phase.dropped → ∀ name ∈ (s.procs p).leases, name ≠ task.name := by
    rintro hdropped name hname rfl
    exact hok.dropped hdropped hname
  cases phase with
  | publishing =>
    rw [go] at hstep
    split_ifs at hstep with hsome hsucceeds
    · cases hstep
      split
      · next t hacquire =>
        refine keeps_acquire h hcall nofun hacquire (unnoted_lease (hok.dropped rfl)) fun hheld hothers ↦ ?_
        obtain ⟨locks, -, rfl⟩ := Option.map_eq_some_iff.mp hacquire
        exact {
          named := hok.named
          locked := fun _ ↦ (hothers _ _ Lock.noConfusion).mpr (hok.locked rfl)
          dropped := fun _ ↦ hok.dropped rfl
          cloned := fun _ ↦ hok.cloned rfl
          exclusive := fun _ ↦ hheld }
      · exact keeps_close h hcall nofun (unnoted_lease (hok.dropped rfl)) fun hothers ↦
          { named := hok.named
            locked := fun _ ↦ (hothers _ _ Lock.noConfusion).mpr (hok.locked rfl)
            dropped := fun _ ↦ hok.dropped rfl }
    · cases hstep
      obtain ⟨hplaced, hothers⟩ := place_src hok.named (hok.cloned rfl)
      refine ⟨.of_checkout (fun _ hne ↦ State.goto_procs hne) (fun _ _ _ _ ↦ .rfl) rfl hcall hok.named
        (hok.locked rfl) (.inr (by simpa using hsome)) (fun entry hentry hne ↦ hothers entry hne ?_)
        (.inr (.inl ⟨_, hplaced⟩)) nofun, ?_⟩
      · rintro rfl
        exact absurd isTemp_tempEntry (Bool.eq_false_iff.mp hentry)
      · refine h.next State.goto_leases State.goto_given State.goto_call (CallOk.goto ?_)
          (fun _ _ hlock ↦ hlock) fun name hname hlike ↦ hothers name (hfresh rfl name hname) ?_
        · exact { named := hok.named, locked := fun _ ↦ hok.locked rfl, dropped := fun _ ↦ hok.dropped rfl,
                  placed := fun _ ↦ hplaced }
        · rintro rfl
          exact absurd (tempLike_of_isTemp isTemp_tempEntry) (Bool.eq_false_iff.mp hlike)
    · cases hstep
      exact keeps_goto h hcall nofun
        { named := hok.named, locked := fun _ ↦ hok.locked rfl, dropped := fun _ ↦ hok.dropped rfl }
  | removing =>
    rw [go] at hstep
    split_ifs at hstep
    · cases hstep
      exact keeps_removed h hcall (.inl rfl)
    · cases hstep
      exact keeps_close h hcall nofun (unnoted_lease (hok.dropped rfl)) fun hothers ↦
        { named := hok.named
          locked := fun _ ↦ (hothers _ _ Lock.noConfusion).mpr (hok.locked rfl)
          dropped := fun _ ↦ hok.dropped rfl }
  | unlinking =>
    rw [hfail rfl] at hstep
    cases hstep
    exact keeps_removed h hcall (.inr rfl)
  | moving =>
    rw [go] at hstep
    split_ifs at hstep
    · cases hstep
      obtain ⟨hplaced, hothers⟩ := place_src hok.named (hok.cloned rfl)
      refine ⟨.of_checkout (fun _ hne ↦ State.goto_procs hne)
        (fun q hne lock mode ↦ LockTable.mem_close_iff (.inl hne)) rfl hcall hok.named
        (hok.locked rfl) (.inl (hok.exclusive rfl)) (fun entry hentry hne ↦ hothers entry hne ?_)
        (.inr (.inl ⟨_, hplaced⟩)) nofun, ?_⟩
      · rintro rfl
        exact absurd isTemp_tempEntry (Bool.eq_false_iff.mp hentry)
      · refine h.next State.goto_leases State.goto_given State.goto_call (CallOk.goto ?_)
          (fun name hname hlock ↦ (LockTable.mem_close_iff (.inr ?_)).mpr hlock)
          fun name hname hlike ↦ hothers name (hfresh rfl name hname) ?_
        · exact { named := hok.named,
                  locked := fun _ ↦ (LockTable.mem_close_iff (.inr Lock.noConfusion)).mpr (hok.locked rfl),
                  dropped := fun _ ↦ hok.dropped rfl, placed := fun _ ↦ hplaced }
        · exact fun heq ↦ hfresh rfl name hname (Lock.lease.inj heq)
        · rintro rfl
          exact absurd (tempLike_of_isTemp isTemp_tempEntry) (Bool.eq_false_iff.mp hlike)
    · cases hstep
      exact keeps_close h hcall nofun (unnoted_lease (hok.dropped rfl)) fun hothers ↦
        { named := hok.named
          locked := fun _ ↦ (hothers _ _ Lock.noConfusion).mpr (hok.locked rfl)
          dropped := fun _ ↦ hok.dropped rfl
          absent := fun _ ↦ hok.absent rfl }
  | leasingNew =>
    obtain ⟨t, hlease, rfl⟩ := Option.map_eq_some_iff.mp hstep
    exact keeps_holdLease h hcall nofun hlease fun hlocks hnoted hsrc ↦
      { named := hok.named
        locked := fun _ ↦ (hlocks _ _).mpr (hok.locked rfl)
        placed := fun _ ↦ by rw [hsrc]; exact hok.placed rfl
        leased := fun _ ↦ hnoted }
  | unlocking =>
    cases hstep
    refine keeps_give h hcall nofun hok.named (hok.leased rfl) (hok.placed rfl)
      (fun q lock mode hother ↦ LockTable.mem_close_iff ?_) rfl rfl rfl
    exact hother.imp_right fun hlock ↦ hlock task.name
  | _ => simp [Phase.exclusive, Phase.placed] at hphase

/-! ### Runs -/

variable (repository)

/-- Complete checkouts and mirrors, and temporary directories that were left over. -/
structure Start where
  src : Text → Option Tree
  mirrors : Text → Option Bool
  whole : ∀ name tree, tempLike name = false → src name = some tree →
    ∃ rev, tree = repository.checkout rev
  complete : ∀ hash complete, mirrors (mirrorFile hash) = some complete → complete = true

/-- Processes that have not yet called `materialize`. -/
def machine (start : Start repository) : Machine State (ℕ × Action) where
  initial := ⟨start.src, start.mirrors, .none, fun _ ↦ .fresh⟩
  step s event := act repository s event.1 event.2

/-- No dependency is named as a temporary directory, no process that was given a checkout gives up its
lease, and none that has removed a part of a tree is killed or fails to remove the rest. -/
def careful (s : State) (event : ℕ × Action) : Bool :=
  match event.2, (s.procs event.1).call with
  | .call task, _ => !tempLike task.name
  | .go _, some (task, .dropping) => ((s.procs event.1).given task.name).isNone
  | .go false, some (_, .unlinking) => false
  | .stop, some (_, .unlinking) => false
  | _, _ => true

def carefulMachine (start : Start repository) : Machine State (ℕ × Action) :=
  (machine repository start).guard fun s event ↦ careful s event

/-! ### What a call does to its place -/

section Places

variable {repository} {s s' : State} {p : ℕ} {task : Task} {phase : Phase}

theorem acquire_src {t : State} {lock : Lock} {mode : LockMode} (h : s.acquire p lock mode = some t) :
    t.src = s.src := by
  obtain ⟨locks, -, rfl⟩ := Option.map_eq_some_iff.mp h
  rfl

theorem holdLease_src {t : State} (h : s.holdLease p name = some t) : t.src = s.src := by
  rw [State.holdLease] at h
  split_ifs at h
  · cases h
    rfl
  · obtain ⟨t', ht', rfl⟩ := Option.map_eq_some_iff.mp h
    exact (acquire_src ht' : t'.src = s.src)

/-- Where a process is after a step of a call: at another place of it that leaves the checkout's place as it
was only where the call did so before, or in no call. -/
theorem untouched_of_go {ok : Bool} {next : Task × Phase}
    (hstep : go repository s p task ok phase = some s') (hnext : (s'.procs p).call = some next) :
    next.1 = task ∧ (next.2.untouched → phase.untouched) := by
  have hgoto : ∀ {t : State} {after : Phase}, ((t.goto p task after).procs p).call = some next →
      next = (task, after) := fun hcall ↦ (Option.some.inj (State.goto_call.symm.trans hcall)).symm
  have hgive : ∀ {t : State}, ((t.give p task).procs p).call ≠ some next := fun h ↦ by
    simp [State.give] at h
  have hexit : ∀ {t : State}, ((t.exit p).procs p).call ≠ some next := fun h ↦ by
    simp [State.exit, Process.fresh] at h
  by_cases hphase : phase.untouched
  · refine ⟨?_, fun _ ↦ hphase⟩
    cases phase with
    | leasing | locking | lockingMirror | leasingNew =>
      obtain ⟨t, -, rfl⟩ := Option.map_eq_some_iff.mp hstep
      rw [hgoto hnext]
    | rechecking | cloningMirror | renamingMirror | fetching | cloning | removing | unlinking | moving =>
      rw [go] at hstep
      split_ifs at hstep <;> cases hstep
      all_goals first
        | exact absurd hnext hgive
        | exact absurd hnext hexit
        | rw [hgoto hnext]
    | publishing =>
      rw [go] at hstep
      split_ifs at hstep
      · cases hstep
        split at hnext <;> rw [hgoto hnext]
      · cases hstep
        rw [hgoto hnext]
      · cases hstep
        rw [hgoto hnext]
    | abandoning | abandoningMirror =>
      cases hstep
      exact absurd hnext hexit
    | unlocking =>
      cases hstep
      exact absurd hnext hgive
    | _ =>
      cases hstep
      rw [hgoto hnext]
  · cases phase with
    | unlinking | moving =>
      rw [go] at hstep
      split_ifs at hstep <;> cases hstep
      · rw [hgoto hnext]
        exact ⟨rfl, nofun⟩
      · rw [hgoto hnext]
        exact ⟨rfl, nofun⟩
    | abandoning removed =>
      cases hstep
      exact absurd hnext hexit
    | leasingNew =>
      obtain ⟨t, -, rfl⟩ := Option.map_eq_some_iff.mp hstep
      rw [hgoto hnext]
      exact ⟨rfl, nofun⟩
    | unlocking =>
      cases hstep
      exact absurd hnext hgive
    | _ => exact absurd rfl hphase

/-- A step changes no checkout's place but that of its call, where the tree is removed or a new one is put
there. -/
theorem src_of_go {ok : Bool} (hname : tempLike name = false)
    (hstep : go repository s p task ok phase = some s') :
    s'.src name = s.src name ∨ (name = task.name ∧ (phase = .publishing ∨ phase.exclusive) ∧
      ∀ next, (s'.procs p).call = some next → next.2.untouched = false) := by
  have hgoto : ∀ {t : State} {after : Phase}, after.untouched = false → ∀ next : Task × Phase,
      ((t.goto p task after).procs p).call = some next → next.2.untouched = false := by
    intro t after hafter next hcall
    cases State.goto_call.symm.trans hcall
    exact hafter
  have htemp : ∀ stem, isTemp (checkoutStem stem) name = false := fun stem ↦
    Bool.eq_false_iff.mpr fun hentry ↦ absurd (tempLike_of_isTemp hentry) (Bool.eq_false_iff.mp hname)
  have hne : name ≠ tempEntry (checkoutStem task.name) p := by
    rintro rfl
    exact absurd isTemp_tempEntry (Bool.eq_false_iff.mp (htemp task.name))
  have hplace : name ≠ task.name → (s.place p task.name).src name = s.src name := fun hother ↦
    (Function.update_of_ne hne ..).trans (Function.update_of_ne hother ..)
  cases phase with
  | leasing | leasingNew =>
    obtain ⟨t, hlease, rfl⟩ := Option.map_eq_some_iff.mp hstep
    exact .inl (congrFun (holdLease_src hlease) name)
  | locking | lockingMirror =>
    obtain ⟨t, hacquire, rfl⟩ := Option.map_eq_some_iff.mp hstep
    exact .inl (congrFun (acquire_src hacquire) name)
  | rechecking | cloningMirror | renamingMirror | fetching =>
    rw [go] at hstep
    split_ifs at hstep <;> (cases hstep; exact .inl rfl)
  | clearing =>
    cases hstep
    exact .inl (if_neg (Bool.eq_false_iff.mp (htemp task.name)))
  | starting | abandoning =>
    cases hstep
    exact .inl (Function.update_of_ne hne ..)
  | cloning =>
    rw [go] at hstep
    split_ifs at hstep <;> cases hstep
    · exact .inl (Function.update_of_ne hne ..)
    · exact .inl rfl
  | publishing =>
    rw [go] at hstep
    split_ifs at hstep <;> cases hstep
    · split
      · next t hacquire => exact .inl (congrFun (acquire_src hacquire) name)
      · exact .inl rfl
    · rcases eq_or_ne name task.name with heq | hother
      · exact .inr ⟨heq, .inl rfl, hgoto rfl⟩
      · exact .inl (hplace hother)
    · exact .inl rfl
  | removing | unlinking =>
    rw [go] at hstep
    split_ifs at hstep <;> cases hstep
    · rcases eq_or_ne name task.name with heq | hother
      · exact .inr ⟨heq, .inr rfl, hgoto rfl⟩
      · exact .inl (Function.update_of_ne hother ..)
    · exact .inl rfl
  | moving =>
    rw [go] at hstep
    split_ifs at hstep <;> cases hstep
    · rcases eq_or_ne name task.name with heq | hother
      · exact .inr ⟨heq, .inr rfl, hgoto rfl⟩
      · exact .inl (hplace hother)
    · exact .inl rfl
  | _ =>
    cases hstep
    exact .inl rfl

/-- A step that changes a checkout's place is one of a call for it, which removes the tree or puts a new one
there. -/
theorem src_of_act {action : Action} (hname : tempLike name = false)
    (hstep : act repository s p action = some s') (hchanged : s'.src name ≠ s.src name) :
    (∃ task phase, (s.procs p).call = some (task, phase) ∧ task.name = name ∧
      (phase = .publishing ∨ phase.exclusive)) ∧
    ∀ next, (s'.procs p).call = some next → next.2.untouched = false := by
  cases action with
  | call task =>
    rw [act] at hstep
    split_ifs at hstep <;> (cases hstep; exact absurd rfl hchanged)
  | go ok =>
    obtain ⟨⟨task, phase⟩, hcall, hgo⟩ := Option.bind_eq_some_iff.mp hstep
    obtain ⟨rfl, hphase, hnext⟩ := (src_of_go hname hgo).resolve_left hchanged
    exact ⟨⟨task, phase, hcall, rfl, hphase⟩, hnext⟩
  | unlink file =>
    rw [act, unlink] at hstep
    have hunlink : ∀ {task phase}, (s.procs p).call = some (task, phase) →
        (phase = .removing ∨ phase = .unlinking) → ∀ tree,
          s' = (s.setSrc task.name tree).goto p task .unlinking →
            (∃ task phase, (s.procs p).call = some (task, phase) ∧ task.name = name ∧
              (phase = .publishing ∨ phase.exclusive)) ∧
            ∀ next, (s'.procs p).call = some next → next.2.untouched = false := by
      rintro task phase hcall hphase tree rfl
      have hsame : task.name = name := by
        by_contra hne
        exact hchanged (Function.update_of_ne (Ne.symm hne) ..)
      refine ⟨⟨task, phase, hcall, hsame, .inr ?_⟩, fun next hnext ↦ ?_⟩
      · rcases hphase with rfl | rfl <;> rfl
      · cases State.goto_call.symm.trans hnext
        rfl
    split at hstep
    · next task hcall =>
      obtain ⟨tree, -, heq⟩ := Option.map_eq_some_iff.mp hstep
      exact hunlink hcall (.inl rfl) _ heq.symm
    · next task hcall =>
      obtain ⟨tree, -, heq⟩ := Option.map_eq_some_iff.mp hstep
      exact hunlink hcall (.inr rfl) _ heq.symm
    · cases hstep
  | stop =>
    cases hstep
    exact absurd rfl hchanged

/-- A call that has left its place as it was did so before each of its steps. -/
theorem untouched_of_act {action : Action} {next : Task × Phase}
    (hstep : act repository s p action = some s') (hnext : (s'.procs p).call = some next)
    (huntouched : next.2.untouched) : (s.procs p).call = none ∨
      ∃ phase, (s.procs p).call = some (next.1, phase) ∧ phase.untouched := by
  cases action with
  | call task =>
    rw [act] at hstep
    split_ifs at hstep with hcall
    · exact .inl (by simpa using hcall)
    · exact .inl (by simpa using hcall)
  | go ok =>
    obtain ⟨⟨task, phase⟩, hcall, hgo⟩ := Option.bind_eq_some_iff.mp hstep
    obtain ⟨hsame, hphase⟩ := untouched_of_go hgo hnext
    exact .inr ⟨phase, hsame ▸ hcall, hphase huntouched⟩
  | unlink file =>
    rw [act, unlink] at hstep
    split at hstep
    · obtain ⟨tree, -, rfl⟩ := Option.map_eq_some_iff.mp hstep
      cases State.goto_call.symm.trans hnext
      cases huntouched
    · obtain ⟨tree, -, rfl⟩ := Option.map_eq_some_iff.mp hstep
      cases State.goto_call.symm.trans hnext
      cases huntouched
    · cases hstep
  | stop =>
    cases hstep
    simp [State.exit, Process.fresh] at hnext

end Places

/-! ### Runs of two processes -/

/-- Two commits, the first with a file. -/
def twoCommits : Repository where
  files rev := if rev = List.replicate 40 'a' then {"file".toList} else ∅
  peel rev := rev
  peel_peel _ := rfl

/-- A project with two checkouts of the first commit, one of them named as a temporary directory, and a cache
with a mirror. -/
def oneProject : Start twoCommits where
  src name := if name = "dep".toList ∨ name = ".tmp-dep-7".toList
    then some (twoCommits.checkout (List.replicate 40 'a')) else none
  mirrors entry := if entry = mirrorFile [] then some true else none
  whole name tree _ h := by
    split_ifs at h
    cases h
    exact ⟨_, rfl⟩
  complete hash complete h := by
    split_ifs at h
    cases h
    rfl

def gos (p count : ℕ) : List (ℕ × Action) := List.replicate count (p, .go true)

/-- A process asks for a dependency at one of the two commits. -/
def asks (p : ℕ) (name : Text) (commit : Char) : ℕ × Action := (p, .call ⟨name, [], List.replicate 40 commit⟩)

/-- A process is killed when it has removed a file, and another asks for the commit that HEAD still names. -/
def damagingRun : List (ℕ × Action) :=
  [asks 2 "dep".toList 'b'] ++ gos 2 9 ++ [(2, .unlink (some "file".toList)), (2, .stop),
    asks 1 "dep".toList 'a'] ++ gos 1 3

/-- A process removes the temporary directories of a dependency, among them a checkout in use. -/
def collidingRun : List (ℕ × Action) :=
  [asks 1 ".tmp-dep-7".toList 'a'] ++ gos 1 3 ++ [asks 2 "dep".toList 'b'] ++ gos 2 6

/-- A process gives up its lease to ask for another commit, and another replaces the checkout first. -/
def droppingRun : List (ℕ × Action) :=
  [asks 1 "dep".toList 'a'] ++ gos 1 3 ++ [asks 1 "dep".toList 'b'] ++ gos 1 2 ++
    [asks 2 "dep".toList 'b'] ++ gos 2 11

/-- Whether the first process was given a checkout of the first commit that is not there as it was. -/
def spoiled (name : Text) (s : State) : Bool :=
  (s.procs 1).given name = some (List.replicate 40 'a') ∧
    s.src name ≠ some (twoCommits.checkout (List.replicate 40 'a'))

/-- After these events the first process has been given a checkout of the first commit that is not there as
it was. -/
def Damaged (events : List (ℕ × Action)) (name : Text) : Prop :=
  ∃ s, (machine twoCommits oneProject).run (machine twoCommits oneProject).initial events = some s ∧
    (s.procs 1).given name = some (List.replicate 40 'a') ∧
      s.src name ≠ some (twoCommits.checkout (List.replicate 40 'a'))

theorem damaged_of_run {events : List (ℕ × Action)} {name : Text} (h : ((machine twoCommits oneProject).run
    (machine twoCommits oneProject).initial events).any (spoiled name)) : Damaged events name := by
  obtain ⟨s, hrun, hs⟩ := (Option.any_eq_true _ _).mp h
  exact ⟨s, hrun, of_decide_eq_true hs⟩

theorem spoiled_of_runs : ∀ run ∈ [(damagingRun, "dep".toList), (collidingRun, ".tmp-dep-7".toList),
    (droppingRun, "dep".toList)], ((machine twoCommits oneProject).run
      (machine twoCommits oneProject).initial run.1).any (spoiled run.2) := by
  decide +kernel

/-- A process has been given a checkout that is not the complete one: another was killed while it removed
the tree, or removed it as a temporary directory, or replaced it when the process had given up its lease to
replace it itself. -/
theorem damaged_checkout_used : Damaged damagingRun "dep".toList ∧
    Damaged collidingRun ".tmp-dep-7".toList ∧ Damaged droppingRun "dep".toList := by
  have hspoiled := spoiled_of_runs
  simp only [List.forall_mem_cons] at hspoiled
  obtain ⟨hdamaging, hcolliding, hdropping, -⟩ := hspoiled
  exact ⟨damaged_of_run hdamaging, damaged_of_run hcolliding, damaged_of_run hdropping⟩

/-- A process replaces a checkout, and another uses the new one. -/
def replacingRun : List (ℕ × Action) :=
  [asks 2 "dep".toList 'b'] ++ gos 2 9 ++ [(2, .unlink (some "file".toList))] ++ gos 2 4 ++
    [asks 1 "dep".toList 'b'] ++ gos 1 3

theorem replacingRun_isSome : ((carefulMachine twoCommits oneProject).run
    (carefulMachine twoCommits oneProject).initial replacingRun).isSome := by
  decide +kernel

/-- The state that a careful run ends in. -/
def replacedState : State :=
  ((carefulMachine twoCommits oneProject).run (carefulMachine twoCommits oneProject).initial
    replacingRun).get replacingRun_isSome

/-! ### Every run -/

variable {repository}

/-- A careful step keeps what is known. -/
theorem Inv.step {start : Start repository} {event : ℕ × Action} (h : Inv repository s)
    (hstep : (carefulMachine repository start).step s event = some s') : Inv repository s' := by
  obtain ⟨p, action⟩ := event
  obtain ⟨hcareful, hstep⟩ := Machine.guard_step.mp hstep
  have hok := h.procs p
  suffices hkeeps : Keeps repository s s' p from h.frame hkeeps.frame hkeeps.ok
  replace hstep : act repository s p action = some s' := hstep
  cases action with
  | call task =>
    rw [act] at hstep
    split_ifs at hstep with hcall
    · cases hstep
      have hnone : (s.procs p).call = none := by simpa using hcall
      have hname : tempLike task.name = false := by simpa [careful] using hcareful
      refine ⟨.of_locks (fun _ hne ↦ State.goto_procs hne) (fun _ _ _ _ ↦ .rfl) rfl rfl fun other hother ↦ ?_, ?_⟩
      · cases hnone.symm.trans hother
      · exact hok.next State.goto_leases State.goto_given State.goto_call { named := hname }
          (fun _ _ hlock ↦ hlock) fun _ _ _ ↦ rfl
    · cases hstep
      refine keeps_exit fun other hother ↦ hcall ?_
      rw [hother, Option.isSome_some]
  | go ok =>
    obtain ⟨⟨task, phase⟩, hcall, hgo⟩ := Option.bind_eq_some_iff.mp hstep
    have hgiven : phase = .dropping → (s.procs p).given task.name = none := by
      rintro rfl
      have hnone : ((s.procs p).given task.name).isNone := by
        cases ok <;> simpa [careful, hcall] using hcareful
      exact Option.isNone_iff_eq_none.mp hnone
    have hfail : phase = .unlinking → ok = true := by
      rintro rfl
      cases ok with
      | true => rfl
      | false => simp [careful, hcall] at hcareful
    rcases hlocked : phase.locked with _ | _
    · exact keeps_unlocked h hcall hlocked hgiven hgo
    · cases phase with
      | lockedChecking | lookingForCommit | lockingMirror | mirrorLocked | clearingMirror | startingMirror
      | cloningMirror | renamingMirror | fetching | abandoningMirror =>
        exact keeps_mirror h hcall (by simp [Phase.mirrorHeld]) hgo
      | clearing | starting | cloning | abandoning => exact keeps_clone h hcall (by simp) hgo
      | publishing | removing | unlinking | moving | leasingNew | unlocking =>
        exact keeps_publish h hcall (by simp [Phase.exclusive, Phase.placed]) hfail hgo
      | _ => cases hlocked
  | unlink file => exact keeps_unlink hok hstep
  | stop =>
    cases hstep
    refine keeps_exit fun other hother ↦ ?_
    simp [careful, hother] at hcareful

theorem inv_of_reachable {start : Start repository}
    (h : (carefulMachine repository start).Reachable s) : Inv repository s := by
  refine h.invariant ⟨fun name tree hname hsrc ↦ .inl (start.whole name tree hname hsrc), start.complete,
    fun p ↦ .fresh rfl⟩ fun _ _ _ _ hinv hstep ↦ hinv.step hstep

/-- In careful runs, what a process was given is the complete checkout of its revision and stays it; every
mirror is complete; the temporary directory that a process has made is there until it moves or removes it;
and a call that raises leaves the checkout's place as it was, or empty: only calls for a checkout change its
place, after they have removed its tree it is empty, and those that raise before that have not changed it. -/
theorem checkouts_stay_whole {start : Start repository}
    (h : (carefulMachine repository start).Reachable s) :
    (∀ p name rev, (s.procs p).given name = some rev → s.src name = some (repository.checkout rev)) ∧
    (∀ hash complete, s.mirrors (mirrorFile hash) = some complete → complete = true) ∧
    (∀ p task phase, (s.procs p).call = some (task, phase) →
      (phase = .cloning ∨ phase.cloned → (s.src (tempEntry (checkoutStem task.name) p)).isSome) ∧
      (phase = .cloningMirror ∨ phase = .renamingMirror →
        (s.mirrors (tempEntry (mirrorStem task.hash) p)).isSome) ∧
      (phase = .abandoning true → s.src task.name = none)) ∧
    ∀ event s', (carefulMachine repository start).step s event = some s' →
      (∀ name, tempLike name = false → s'.src name ≠ s.src name → ∃ task phase,
        (s.procs event.1).call = some (task, phase) ∧ task.name = name ∧
          (phase = .publishing ∨ phase.exclusive)) ∧
      ∀ task phase, (s'.procs event.1).call = some (task, phase) → phase.untouched →
        s'.src task.name = s.src task.name ∧ ((s.procs event.1).call = none ∨
          ∃ before, (s.procs event.1).call = some (task, before) ∧ before.untouched) := by
  have hinv := inv_of_reachable h
  refine ⟨fun p name rev hgiven ↦ ((hinv.procs p).given name rev hgiven).2.2, hinv.complete,
    fun p task phase hcall ↦ ?_, fun event s' hstep ↦ ?_⟩
  · have hok := (hinv.procs p).call task phase hcall
    refine ⟨?_, ?_, fun hphase ↦ hok.absent (by rw [hphase]; rfl)⟩
    · rintro (hphase | hphase)
      · exact hok.cloning hphase
      · rw [hok.cloned hphase, Option.isSome_some]
    · rintro (hphase | hphase)
      · exact hok.mirrorCloning hphase
      · rw [hok.mirrorCloned hphase, Option.isSome_some]
  · have hact : act repository s event.1 event.2 = some s' := (Machine.guard_step.mp hstep).2
    refine ⟨fun name hname hchanged ↦ (src_of_act hname hact hchanged).1, fun task phase hcall huntouched ↦ ?_⟩
    have hname := (((hinv.step hstep).procs event.1).call task phase hcall).named
    refine ⟨?_, untouched_of_act hact hcall huntouched⟩
    by_contra hchanged
    exact absurd huntouched (Bool.eq_false_iff.mp ((src_of_act hname hact hchanged).2 _ hcall))

/-- Both processes have the new checkout. -/
theorem replacedState_whole : (∀ p name rev, (replacedState.procs p).given name = some rev →
    replacedState.src name = some (twoCommits.checkout rev)) ∧
    (replacedState.procs 1).given "dep".toList = some (List.replicate 40 'b') ∧
    (replacedState.procs 2).given "dep".toList = some (List.replicate 40 'b') :=
  ⟨(checkouts_stay_whole (Machine.reachable_of_run replacingRun_isSome)).1, by decide +kernel⟩

end Holbuild.Dependencies
