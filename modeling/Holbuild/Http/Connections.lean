import Holbuild.Library.Custody
import Holbuild.Library.Machine
import Mathlib.Algebra.Order.Group.Int
import Mathlib.Data.Int.Basic
import Mathlib.Logic.Function.Basic

/-!
# The pool of HTTP connections

Any number of threads send requests through `with_handle`, each over a connection of the pool or a new one.
`give` puts a connection back and starts a reaper when none is there; the reaper closes what has been idle
for the timeout, sleeps until the oldest connection left would expire, and ends when the pool is empty. A
failed fork closes what is in the pool.

A step is a thread's next access to the pool, to its lock or to a connection, in any order among the threads.
-/

set_option autoImplicit false
set_option relaxedAutoImplicit false

namespace Holbuild.Http

open Library

/-! ### Threads -/

/-- A pooled connection and when it was returned. -/
structure Entry where
  connection : ℕ
  since : ℤ
deriving DecidableEq

/-- Where a thread is. -/
inductive Phase
  | outside
  /-- `take` has the lock. -/
  | taking
  | taken (connection : Option ℕ)
  /-- `new_connection`, without the lock. -/
  | creating
  | requesting (connection : ℕ)
  /-- The request raised, or the new connection could not be set up. -/
  | discarding (connection : ℕ)
  | giving (connection : ℕ)
  /-- `give` has the lock. -/
  | pooling (connection : ℕ)
  | pooled
  | flagged (forks : Bool)
  | forking
  | unforked
  /-- The handler of a failed fork has the lock. -/
  | unflagging
  | emptying
  | emptied (batch : List ℕ)
  | dropping (batch : List ℕ)
  | reaper
  /-- The reaper has the lock. -/
  | expiring
  | expired (batch : List ℕ) (kept : List Entry) (read : ℤ)
  | decided (batch : List ℕ) (read : ℤ) (wait : Option ℤ)
  | closing (batch : List ℕ) (read : ℤ) (wait : Option ℤ)
  /-- A sleep of `wait` from `began` on; the clock was read at `read`. -/
  | sleeping (read began wait : ℤ)
deriving DecidableEq

namespace Phase

/-- Whether a thread is in a section of the lock. -/
def locked : Phase → Bool
  | .taking | .taken _ | .pooling _ | .pooled | .flagged _ | .unflagging | .emptying | .emptied _ | .expiring
  | .expired .. | .decided .. => true
  | _ => false

/-- The connection of a thread's request. -/
def used : Phase → Option ℕ
  | .taken connection => connection
  | .requesting connection | .giving connection | .pooling connection => some connection
  | _ => none

/-- The connections that a thread is going to close. -/
def condemned : Phase → List ℕ
  | .discarding connection => [connection]
  | .emptied batch | .dropping batch | .expired batch .. | .decided batch .. | .closing batch .. => batch
  | _ => []

/-- Whether a thread is a reaper that has not found the pool empty. -/
def reaps : Phase → Bool
  | .reaper | .expiring | .expired .. | .decided _ _ (some _) | .closing _ _ (some _) | .sleeping .. => true
  | _ => false

/-- Whether a thread is to start a reaper and has set the flag for it. -/
def starts : Phase → Bool
  | .flagged true | .forking | .unforked | .unflagging => true
  | _ => false

/-- Whether a reaper is there, or to be started, because of a thread. -/
def minds (phase : Phase) : Bool := phase.reaps || phase.starts

/-- Whether the pool may hold connections while no reaper is there. -/
def exposed : Phase → Bool
  | .pooled | .emptying => true
  | _ => false

/-- The time that a reaper read and how long it sleeps. -/
def plan : Phase → Option (ℤ × ℤ)
  | .decided _ read (some wait) | .closing _ read (some wait) | .sleeping read _ wait => some (read, wait)
  | _ => none

end Phase

/-- The pool and whether a reaper is there, the number of connections created, those closed, the last first, the
thread that has the lock, the clock, and the threads. -/
structure State where
  idle : List Entry
  reaping : Bool
  created : ℕ
  closed : List ℕ
  lock : Option ℕ
  now : ℤ
  phases : ℕ → Phase

inductive Event
  | tick (duration : ℕ)
  /-- A thread's next step, which may fail. -/
  | go (p : ℕ) (ok : Bool)
  /-- A fork, with the number that the new thread gets. -/
  | fork (p r : ℕ)

namespace State

def setPhase (s : State) (p : ℕ) (phase : Phase) : State :=
  { s with phases := Function.update s.phases p phase }

/-- A thread locks the mutex; `none` while another has it. -/
def acquire (s : State) (p : ℕ) (phase : Phase) : Option State :=
  if s.lock = none then some ({ s with lock := some p }.setPhase p phase) else none

def release (s : State) (p : ℕ) (phase : Phase) : State := { s with lock := none }.setPhase p phase

def close (s : State) (p connection : ℕ) (phase : Phase) : State :=
  { s with closed := connection :: s.closed }.setPhase p phase

end State

/-- The entries that a reaper keeps. -/
def kept (timeout now : ℤ) (idle : List Entry) : List Entry := idle.filter fun e ↦ now - e.since < timeout

/-- The connections that a reaper closes. -/
def expired (timeout now : ℤ) (idle : List Entry) : List ℕ :=
  (idle.filter fun e ↦ !decide (now - e.since < timeout)).map Entry.connection

/-- The next step of a thread; `none` while it cannot go on. -/
def go (timeout : ℤ) (s : State) (p : ℕ) (ok : Bool) : Phase → Option State
  | .outside => s.acquire p .taking
  | .taking =>
    match s.idle with
    | e :: rest => some ({ s with idle := rest }.setPhase p (.taken (some e.connection)))
    | [] => some (s.setPhase p (.taken none))
  | .taken (some connection) => some (s.release p (.requesting connection))
  | .taken none => some (s.release p .creating)
  | .creating =>
    some ({ s with created := s.created + 1 }.setPhase p
      (if ok then .requesting s.created else .discarding s.created))
  | .requesting connection => some (s.setPhase p (if ok then .giving connection else .discarding connection))
  | .discarding connection => some (s.close p connection .outside)
  | .giving connection => s.acquire p (.pooling connection)
  | .pooling connection => some ({ s with idle := ⟨connection, s.now⟩ :: s.idle }.setPhase p .pooled)
  | .pooled => some ({ s with reaping := true }.setPhase p (.flagged !s.reaping))
  | .flagged forks => some (s.release p (if forks then .forking else .outside))
  | .forking => if ok then none else some (s.setPhase p .unforked)
  | .unforked => s.acquire p .unflagging
  | .unflagging => some ({ s with reaping := false }.setPhase p .emptying)
  | .emptying => some ({ s with idle := [] }.setPhase p (.emptied (s.idle.map Entry.connection)))
  | .emptied batch => some (s.release p (.dropping batch))
  | .dropping (connection :: rest) => some (s.close p connection (.dropping rest))
  | .dropping [] => some (s.setPhase p .outside)
  | .reaper => s.acquire p .expiring
  | .expiring =>
    some ({ s with idle := kept timeout s.now s.idle }.setPhase p
      (.expired (expired timeout s.now s.idle) (kept timeout s.now s.idle) s.now))
  | .expired batch kept read =>
    match kept.reverse with
    | [] => some ({ s with reaping := false }.setPhase p (.decided batch read none))
    | oldest :: _ => some (s.setPhase p (.decided batch read (some (oldest.since + timeout - read))))
  | .decided batch read wait => some (s.release p (.closing batch read wait))
  | .closing (connection :: rest) read wait => some (s.close p connection (.closing rest read wait))
  | .closing [] _ none => some (s.setPhase p .outside)
  | .closing [] read (some wait) => some (s.setPhase p (.sleeping read s.now wait))
  | .sleeping _ began wait => if began + wait ≤ s.now then some (s.setPhase p .reaper) else none

def step (timeout : ℤ) (s : State) : Event → Option State
  | .tick duration => some { s with now := s.now + duration }
  | .go p ok => go timeout s p ok (s.phases p)
  | .fork p r =>
    if s.phases p = .forking ∧ s.phases r = .outside then
      some ((s.setPhase p .outside).setPhase r .reaper)
    else none

/-- The pool of a process with an idle timeout, from a start of the clock. -/
def machine (timeout start : ℤ) : Machine State Event where
  initial := ⟨[], false, 0, [], none, start, fun _ ↦ .outside⟩
  step := step timeout

/-! ### What a thread's step does -/

section Steps

variable {timeout : ℤ} {s s' : State} {p q r : ℕ} {a b : Phase}

@[simp] theorem setPhase_phases : (s.setPhase p b).phases = Function.update s.phases p b := rfl

/-- How a thread that goes on leaves the lock. -/
inductive Turn (lock : Option ℕ) (p : ℕ) (a b : Phase) : Option ℕ → Prop
  | stay : b.locked = a.locked → Turn lock p a b lock
  | acquire : a.locked = false → b.locked = true → lock = none → Turn lock p a b (some p)
  | release : a.locked = true → b.locked = false → Turn lock p a b none

/-- What a thread keeps when it goes on without the pool. -/
structure Walk (a b : Phase) : Prop where
  used : b.used = a.used
  minds : b.minds = a.minds
  plan : b.plan = none ∨ b.plan = a.plan
  covered : a.exposed = false
  exposed : b.exposed = false
  keeps : ∀ batch entries read, b ≠ .expired batch entries read

/-- What a thread's next step can be. -/
inductive Goes (timeout : ℤ) (s : State) (p : ℕ) : State → Prop
  | walk {b : Phase} {lock : Option ℕ} : Turn s.lock p (s.phases p) b lock → Walk (s.phases p) b →
    b.condemned = (s.phases p).condemned → Goes timeout s p ({ s with lock := lock }.setPhase p b)
  | close {b : Phase} {connection : ℕ} : Turn s.lock p (s.phases p) b s.lock → Walk (s.phases p) b →
    (s.phases p).condemned = connection :: b.condemned → Goes timeout s p (s.close p connection b)
  | take {e : Entry} {rest : List Entry} : s.phases p = .taking → s.idle = e :: rest →
    Goes timeout s p ({ s with idle := rest }.setPhase p (.taken (some e.connection)))
  | create {b : Phase} : s.phases p = .creating → b = .requesting s.created ∨ b = .discarding s.created →
    Goes timeout s p ({ s with created := s.created + 1 }.setPhase p b)
  | discard {connection : ℕ} : s.phases p = .requesting connection →
    Goes timeout s p (s.setPhase p (.discarding connection))
  | pool {connection : ℕ} : s.phases p = .pooling connection →
    Goes timeout s p ({ s with idle := ⟨connection, s.now⟩ :: s.idle }.setPhase p .pooled)
  | flag : s.phases p = .pooled → Goes timeout s p ({ s with reaping := true }.setPhase p (.flagged !s.reaping))
  | unflag : s.phases p = .unflagging → Goes timeout s p ({ s with reaping := false }.setPhase p .emptying)
  | empty : s.phases p = .emptying →
    Goes timeout s p ({ s with idle := [] }.setPhase p (.emptied (s.idle.map Entry.connection)))
  | expire : s.phases p = .expiring →
    Goes timeout s p ({ s with idle := kept timeout s.now s.idle }.setPhase p
      (.expired (expired timeout s.now s.idle) (kept timeout s.now s.idle) s.now))
  | plan {batch : List ℕ} {entries younger : List Entry} {read : ℤ} {oldest : Entry} :
    s.phases p = .expired batch entries read → entries = younger ++ [oldest] →
    Goes timeout s p (s.setPhase p (.decided batch read (some (oldest.since + timeout - read))))
  | finish {batch : List ℕ} {read : ℤ} : s.phases p = .expired batch [] read →
    Goes timeout s p ({ s with reaping := false }.setPhase p (.decided batch read none))

theorem goes_of_acquire (ha : s.phases p = a) (h : s.acquire p b = some s') (hlock : a.locked = false)
    (hb : b.locked = true) (hwalk : Walk a b) (hcondemned : b.condemned = a.condemned) :
    Goes timeout s p s' := by
  subst ha
  rw [State.acquire] at h
  split_ifs at h with hfree
  cases h
  exact .walk (.acquire hlock hb hfree) hwalk hcondemned

theorem goes_release (ha : s.phases p = a) (hlock : a.locked = true) (hb : b.locked = false)
    (hwalk : Walk a b) (hcondemned : b.condemned = a.condemned) : Goes timeout s p (s.release p b) := by
  subst ha
  exact .walk (.release hlock hb) hwalk hcondemned

theorem goes_setPhase (ha : s.phases p = a) (hlock : b.locked = a.locked) (hwalk : Walk a b)
    (hcondemned : b.condemned = a.condemned) : Goes timeout s p (s.setPhase p b) := by
  subst ha
  exact show Goes timeout s p ({ s with lock := s.lock }.setPhase p b) from .walk (.stay hlock) hwalk hcondemned

theorem goes_close {connection : ℕ} (ha : s.phases p = a) (hlock : b.locked = a.locked) (hwalk : Walk a b)
    (hcondemned : a.condemned = connection :: b.condemned) : Goes timeout s p (s.close p connection b) := by
  subst ha
  exact .close (.stay hlock) hwalk hcondemned

theorem goes_of_go {ok : Bool} (h : go timeout s p ok (s.phases p) = some s') : Goes timeout s p s' := by
  cases ha : s.phases p with
  | outside | giving | unforked | reaper =>
    rw [ha, go] at h
    exact goes_of_acquire ha h rfl rfl ⟨rfl, rfl, .inl rfl, rfl, rfl, nofun⟩ rfl
  | taking =>
    rw [ha, go] at h
    split at h
    · next e rest hidle =>
      cases h
      exact .take ha hidle
    · cases h
      exact goes_setPhase ha rfl ⟨rfl, rfl, .inl rfl, rfl, rfl, nofun⟩ rfl
  | taken connection =>
    rw [ha] at h
    cases connection with
    | none =>
      cases h
      exact goes_release ha rfl rfl ⟨rfl, rfl, .inl rfl, rfl, rfl, nofun⟩ rfl
    | some connection =>
      cases h
      exact goes_release ha rfl rfl ⟨rfl, rfl, .inl rfl, rfl, rfl, nofun⟩ rfl
  | creating =>
    rw [ha] at h
    cases h
    refine .create ha ?_
    split_ifs
    · exact .inl rfl
    · exact .inr rfl
  | requesting connection =>
    rw [ha] at h
    cases ok with
    | false =>
      cases h
      exact .discard ha
    | true =>
      cases h
      exact goes_setPhase ha rfl ⟨rfl, rfl, .inl rfl, rfl, rfl, nofun⟩ rfl
  | pooling connection =>
    rw [ha] at h
    cases h
    exact .pool ha
  | pooled =>
    rw [ha] at h
    cases h
    exact .flag ha
  | flagged forks =>
    rw [ha] at h
    cases forks with
    | false =>
      cases h
      exact goes_release ha rfl rfl ⟨rfl, rfl, .inl rfl, rfl, rfl, nofun⟩ rfl
    | true =>
      cases h
      exact goes_release ha rfl rfl ⟨rfl, rfl, .inl rfl, rfl, rfl, nofun⟩ rfl
  | forking =>
    rw [ha, go] at h
    split_ifs at h
    cases h
    exact goes_setPhase ha rfl ⟨rfl, rfl, .inl rfl, rfl, rfl, nofun⟩ rfl
  | unflagging =>
    rw [ha] at h
    cases h
    exact .unflag ha
  | emptying =>
    rw [ha] at h
    cases h
    exact .empty ha
  | emptied batch =>
    rw [ha] at h
    cases h
    exact goes_release ha rfl rfl ⟨rfl, rfl, .inl rfl, rfl, rfl, nofun⟩ rfl
  | discarding connection =>
    rw [ha] at h
    cases h
    exact goes_close ha rfl ⟨rfl, rfl, .inl rfl, rfl, rfl, nofun⟩ rfl
  | dropping batch =>
    rw [ha] at h
    cases batch with
    | nil =>
      cases h
      exact goes_setPhase ha rfl ⟨rfl, rfl, .inl rfl, rfl, rfl, nofun⟩ rfl
    | cons connection rest =>
      cases h
      exact goes_close ha rfl ⟨rfl, rfl, .inl rfl, rfl, rfl, nofun⟩ rfl
  | expiring =>
    rw [ha] at h
    cases h
    exact .expire ha
  | expired batch entries read =>
    rw [ha, go] at h
    split at h
    · next hnil =>
      cases h
      exact .finish (ha.trans (by rw [List.reverse_eq_nil_iff.mp hnil]))
    · next oldest younger hcons =>
      cases h
      exact .plan ha (List.reverse_eq_cons_iff.mp hcons)
  | decided batch read wait =>
    rw [ha] at h
    cases wait with
    | none =>
      cases h
      exact goes_release ha rfl rfl ⟨rfl, rfl, .inl rfl, rfl, rfl, nofun⟩ rfl
    | some wait =>
      cases h
      exact goes_release ha rfl rfl ⟨rfl, rfl, .inr rfl, rfl, rfl, nofun⟩ rfl
  | closing batch read wait =>
    rw [ha] at h
    cases batch with
    | nil =>
      cases wait with
      | none =>
        cases h
        exact goes_setPhase ha rfl ⟨rfl, rfl, .inl rfl, rfl, rfl, nofun⟩ rfl
      | some wait =>
        cases h
        exact goes_setPhase ha rfl ⟨rfl, rfl, .inr rfl, rfl, rfl, nofun⟩ rfl
    | cons connection rest =>
      cases wait with
      | none =>
        cases h
        exact goes_close ha rfl ⟨rfl, rfl, .inl rfl, rfl, rfl, nofun⟩ rfl
      | some wait =>
        cases h
        exact goes_close ha rfl ⟨rfl, rfl, .inr rfl, rfl, rfl, nofun⟩ rfl
  | sleeping read began wait =>
    rw [ha, go] at h
    split_ifs at h
    cases h
    exact goes_setPhase ha rfl ⟨rfl, rfl, .inl rfl, rfl, rfl, nofun⟩ rfl

/-! ### Who has which connection -/

inductive Holder
  | idle
  | request (p : ℕ)
  | closer (p : ℕ)
  | closed
deriving DecidableEq

/-- The connections in the pool, those of the requests, those that threads are going to close, and those that
are closed. -/
def State.holdings (s : State) : Holder → List ℕ
  | .idle => s.idle.map Entry.connection
  | .request p => (s.phases p).used.toList
  | .closer p => (s.phases p).condemned
  | .closed => s.closed

/-- A thread's step leaves what it says nothing about. -/
theorem holdings_eq (hphases : s'.phases = Function.update s.phases p b) {k : Holder}
    (hidle : k ≠ .idle ∨ s'.idle = s.idle) (hclosed : k ≠ .closed ∨ s'.closed = s.closed)
    (hused : k ≠ .request p ∨ b.used = (s.phases p).used)
    (hcondemned : k ≠ .closer p ∨ b.condemned = (s.phases p).condemned) : s'.holdings k = s.holdings k := by
  cases k with
  | idle => rw [State.holdings, hidle.resolve_left (absurd rfl), State.holdings]
  | closed => exact hclosed.resolve_left (absurd rfl)
  | request q =>
    rw [State.holdings, State.holdings, hphases]
    rcases eq_or_ne q p with rfl | hne
    · rw [Function.update_self, hused.resolve_left (absurd rfl)]
    · rw [Function.update_of_ne hne]
  | closer q =>
    rw [State.holdings, State.holdings, hphases]
    rcases eq_or_ne q p with rfl | hne
    · rw [Function.update_self, hcondemned.resolve_left (absurd rfl)]
    · rw [Function.update_of_ne hne]

/-- Each connection is with one holder, once. -/
def State.Booked (s : State) : Prop := Custody s.holdings (· < s.created)

theorem Goes.booked (h : Goes timeout s p s') (hbooked : s.Booked) : s'.Booked := by
  have hhands : ∀ {t : State} {c : Phase}, t.phases p = c →
      t.holdings (.request p) = c.used.toList ∧ t.holdings (.closer p) = c.condemned := by
    rintro t c rfl
    exact ⟨rfl, rfl⟩
  have hnext : ∀ {t : State} {c : Phase}, (t.setPhase p c).phases p = c := Function.update_self ..
  cases h with
  | walk hturn hwalk hcondemned =>
    exact hbooked.congr fun k ↦ holdings_eq rfl (.inr rfl) (.inr rfl) (.inr hwalk.used) (.inr hcondemned)
  | @close b connection hturn hwalk hcondemned =>
    refine hbooked.move (nofun : Holder.closer p ≠ .closed) (?_ : List.Perm _ ([connection] ++ _)) .rfl
      fun k hk hk' ↦ holdings_eq rfl (.inr rfl) (.inl hk') (.inr hwalk.used) (.inl hk)
    have hafter : (s.close p connection b).holdings (.closer p) = b.condemned := (hhands hnext).2
    rw [(hhands rfl).2, hafter, hcondemned]
    exact .rfl
  | @take e rest ha hidle =>
    refine hbooked.move (nofun : Holder.idle ≠ .request p) (?_ : List.Perm _ ([e.connection] ++ _)) ?_
      fun k hk hk' ↦ holdings_eq rfl (.inl hk) (.inr rfl) (.inl hk') (.inr (by rw [ha]; rfl))
    · rw [State.holdings, hidle]
      exact .rfl
    · rw [(hhands hnext).1, (hhands ha).1]
      exact .rfl
  | @create b ha hb =>
    have hnew : ¬ s.created < s.created := lt_irrefl _
    have hcreated : ∀ c, c < s.created + 1 ↔ c = s.created ∨ c < s.created := fun c ↦ by omega
    rcases hb with rfl | rfl
    · refine hbooked.create hnew hcreated (?_ : State.holdings _ (.request p) = _) fun k hk ↦
        holdings_eq rfl (.inr rfl) (.inr rfl) (.inl hk) (.inr (by rw [ha]; rfl))
      rw [(hhands hnext).1, (hhands ha).1]
      rfl
    · refine hbooked.create hnew hcreated (?_ : State.holdings _ (.closer p) = _) fun k hk ↦
        holdings_eq rfl (.inr rfl) (.inr rfl) (.inr (by rw [ha]; rfl)) (.inl hk)
      rw [(hhands hnext).2, (hhands ha).2]
      rfl
  | @discard connection ha =>
    refine hbooked.move (nofun : Holder.request p ≠ .closer p) (?_ : List.Perm _ ([connection] ++ _)) ?_
      fun k hk hk' ↦ holdings_eq rfl (.inr rfl) (.inr rfl) (.inl hk) (.inl hk')
    · rw [(hhands ha).1, (hhands hnext).1]
      exact .rfl
    · rw [(hhands hnext).2, (hhands ha).2]
      exact .rfl
  | @pool connection ha =>
    refine hbooked.move (nofun : Holder.request p ≠ .idle) (?_ : List.Perm _ ([connection] ++ _)) .rfl
      fun k hk hk' ↦ holdings_eq rfl (.inl hk') (.inr rfl) (.inl hk) (.inr (by rw [ha]; rfl))
    rw [(hhands ha).1, (hhands hnext).1]
    exact .rfl
  | flag ha | unflag ha | plan ha _ | finish ha =>
    exact hbooked.congr fun k ↦
      holdings_eq rfl (.inr rfl) (.inr rfl) (.inr (by rw [ha]; rfl)) (.inr (by rw [ha]; rfl))
  | empty ha =>
    refine hbooked.move (nofun : Holder.idle ≠ .closer p)
      (?_ : List.Perm _ (s.idle.map Entry.connection ++ _)) ?_
      fun k hk hk' ↦ holdings_eq rfl (.inl hk) (.inr rfl) (.inr (by rw [ha]; rfl)) (.inl hk')
    · exact .of_eq (List.append_nil _).symm
    · rw [(hhands hnext).2, (hhands ha).2]
      exact .of_eq (List.append_nil _).symm
  | expire ha =>
    refine hbooked.move (nofun : Holder.idle ≠ .closer p)
      (?_ : List.Perm _ (expired timeout s.now s.idle ++ _)) ?_
      fun k hk hk' ↦ holdings_eq rfl (.inl hk) (.inr rfl) (.inr (by rw [ha]; rfl)) (.inl hk')
    · refine List.perm_append_comm.trans ?_ |>.symm
      rw [State.holdings, State.holdings, expired, ← List.map_append]
      exact (List.filter_append_perm _ s.idle).map _
    · rw [(hhands hnext).2, (hhands ha).2]
      exact .of_eq (List.append_nil _).symm

/-! ### The lock -/

/-- The thread that has the lock is the one in a section of it. -/
def State.Locked (s : State) : Prop := ∀ q, (s.phases q).locked = true ↔ s.lock = some q

/-- A step changes its thread's phase, and the lock as the phases say. -/
theorem Goes.turn (h : Goes timeout s p s') :
    ∃ b, s'.phases = Function.update s.phases p b ∧ Turn s.lock p (s.phases p) b s'.lock := by
  cases h with
  | walk hturn => exact ⟨_, rfl, hturn⟩
  | close hturn => exact ⟨_, rfl, hturn⟩
  | create ha hb =>
    refine ⟨_, rfl, .stay ?_⟩
    rcases hb with rfl | rfl <;> rw [ha] <;> rfl
  | take ha | discard ha | pool ha | flag ha | unflag ha | empty ha | expire ha | plan ha | finish ha =>
    exact ⟨_, rfl, .stay (by rw [ha]; rfl)⟩

theorem Goes.locked (h : Goes timeout s p s') (hlocked : s.Locked) : s'.Locked := by
  obtain ⟨b, hphases, hturn⟩ := h.turn
  intro q
  rw [hphases]
  generalize s'.lock = lock at hturn
  rcases eq_or_ne q p with rfl | hne
  · rw [Function.update_self]
    cases hturn with
    | stay hsame => rw [hsame, hlocked q]
    | acquire _ hb => simp [hb]
    | release _ hb => simp [hb]
  · rw [Function.update_of_ne hne, hlocked q]
    cases hturn with
    | stay => rfl
    | acquire _ _ hfree => simp [hfree, hne.symm]
    | release ha => simp [(hlocked p).mp ha, hne.symm]

/-- A step that changes the pool is one in a section of the lock. -/
theorem Goes.idle (h : Goes timeout s p s') : s'.idle = s.idle ∨ (s.phases p).locked = true := by
  cases h with
  | take ha | pool ha | empty ha | expire ha => exact .inr (by rw [ha]; rfl)
  | _ => exact .inl rfl

/-- What a reaper is about to decide by is what is in the pool. -/
def State.Partitioned (s : State) : Prop :=
  ∀ q batch entries read, s.phases q = .expired batch entries read → s.idle = entries

/-- A reaper that has parted the pool has read the clock, and the pool is what it keeps. -/
theorem Goes.parts (h : Goes timeout s p s') {batch : List ℕ} {entries : List Entry} {read : ℤ}
    (hp : s'.phases p = .expired batch entries read) : s'.idle = entries ∧ read = s.now := by
  have hnext : ∀ {t : State} {c : Phase}, (t.setPhase p c).phases p = .expired batch entries read →
      c = .expired batch entries read := by
    intro t c hc
    rwa [setPhase_phases, Function.update_self] at hc
  cases h with
  | walk _ hwalk => exact absurd (hnext hp) (hwalk.keeps _ _ _)
  | close _ hwalk => exact absurd (hnext hp) (hwalk.keeps _ _ _)
  | create ha hb => rcases hb with rfl | rfl <;> cases hnext hp
  | expire ha =>
    cases hnext hp
    exact ⟨rfl, rfl⟩
  | _ => cases hnext hp

theorem Goes.partitioned (h : Goes timeout s p s') (hlocked : s.Locked) (hparted : s.Partitioned) :
    s'.Partitioned := by
  intro q batch entries read hq
  rcases eq_or_ne q p with rfl | hne
  · exact (h.parts hq).1
  · obtain ⟨b, hphases, -⟩ := h.turn
    rw [hphases, Function.update_of_ne hne] at hq
    have hother : (s.phases p).locked ≠ true := by
      intro hp
      have hlock := (hlocked p).mp hp
      have hlock' := (hlocked q).mp (by rw [hq]; rfl)
      exact hne (Option.some.inj (hlock'.symm.trans hlock))
    rw [h.idle.resolve_right hother, hparted q batch entries read hq]

/-! ### The reaper -/

/-- A reaper is there, or to be started, because of one thread, and only when the pool says so. -/
structure State.Minded (s : State) : Prop where
  minder : s.reaping = true → ∃ q, (s.phases q).minds = true
  said : ∀ q, (s.phases q).minds = true → s.reaping = true
  alone : ∀ q r, (s.phases q).minds = true → (s.phases r).minds = true → q = r

/-- A step hands on what is said, says that a reaper is to come, or that none is there. -/
theorem Goes.minds (h : Goes timeout s p s') : ∃ b, s'.phases = Function.update s.phases p b ∧
    (b.minds = (s.phases p).minds ∧ s'.reaping = s.reaping ∨
      (s.phases p).minds = false ∧ b.minds = !s.reaping ∧ s'.reaping = true ∨
      (s.phases p).minds = true ∧ b.minds = false ∧ s'.reaping = false) := by
  cases h with
  | walk _ hwalk => exact ⟨_, rfl, .inl ⟨hwalk.minds, rfl⟩⟩
  | close _ hwalk => exact ⟨_, rfl, .inl ⟨hwalk.minds, rfl⟩⟩
  | create ha hb =>
    refine ⟨_, rfl, .inl ⟨?_, rfl⟩⟩
    rcases hb with rfl | rfl <;> rw [ha] <;> rfl
  | take ha | discard ha | pool ha | empty ha | expire ha | plan ha =>
    exact ⟨_, rfl, .inl ⟨by rw [ha]; rfl, rfl⟩⟩
  | flag ha => exact ⟨_, rfl, .inr (.inl ⟨by rw [ha]; rfl, by cases s.reaping <;> rfl, rfl⟩)⟩
  | unflag ha | finish ha => exact ⟨_, rfl, .inr (.inr ⟨by rw [ha]; rfl, rfl, rfl⟩)⟩

theorem Goes.minded (h : Goes timeout s p s') (hminded : s.Minded) : s'.Minded := by
  obtain ⟨b, hphases, hcases⟩ := h.minds
  have hself : s'.phases p = b := by rw [hphases, Function.update_self]
  have hother : ∀ q, q ≠ p → s'.phases q = s.phases q := fun q hne ↦ by rw [hphases, Function.update_of_ne hne]
  rcases hcases with ⟨hb, hsame⟩ | ⟨ha, hb, hset⟩ | ⟨ha, hb, hunset⟩
  · have hall : ∀ q, (s'.phases q).minds = (s.phases q).minds := by
      intro q
      rcases eq_or_ne q p with rfl | hne
      · rw [hself, hb]
      · rw [hother q hne]
    constructor
    · simpa only [hall, hsame] using hminded.minder
    · simpa only [hall, hsame] using hminded.said
    · simpa only [hall] using hminded.alone
  · -- the thread minds from now on if no other does
    have hnone : s.reaping = false → ∀ q, (s.phases q).minds = false := fun hfalse q ↦
      Bool.eq_false_iff.mpr fun hq ↦ absurd (hminded.said q hq) (by simp [hfalse])
    cases hreaping : s.reaping with
    | false =>
      have honly : ∀ q, (s'.phases q).minds = true → q = p := by
        intro q hq
        by_contra hne
        rw [hother q hne, hnone hreaping q] at hq
        cases hq
      refine ⟨fun _ ↦ ⟨p, ?_⟩, fun _ _ ↦ hset, fun q r hq hr ↦ (honly q hq).trans (honly r hr).symm⟩
      rw [hself, hb, hreaping]
      rfl
    | true =>
      have hall : ∀ q, (s'.phases q).minds = (s.phases q).minds := by
        intro q
        rcases eq_or_ne q p with rfl | hne
        · rw [hself, hb, ha, hreaping]
          rfl
        · rw [hother q hne]
      refine ⟨fun _ ↦ ?_, fun _ _ ↦ hset, by simpa only [hall] using hminded.alone⟩
      simpa only [hall] using hminded.minder hreaping
  · have hnone : ∀ q, (s'.phases q).minds ≠ true := by
      intro q hq
      rcases eq_or_ne q p with rfl | hne
      · rw [hself, hb] at hq
        cases hq
      · rw [hother q hne] at hq
        exact hne (hminded.alone q p hq ha)
    exact ⟨fun hset ↦ absurd (hunset.symm.trans hset) nofun, fun q hq ↦ absurd hq (hnone q),
      fun q _ hq ↦ absurd hq (hnone q)⟩

/-- A reaper is there or to come while the pool holds connections, unless a thread in a section of the lock is
about to say so or to empty the pool. -/
def State.Watched (s : State) : Prop :=
  s.idle ≠ [] → s.reaping = true ∨ ∃ q, (s.phases q).exposed = true

theorem Goes.watched (h : Goes timeout s p s') (hparted : s.Partitioned) (hwatched : s.Watched) :
    s'.Watched := by
  -- another thread that is about to say so still is
  have hstill : ∀ {t : State} {c : Phase}, (s.phases p).exposed = false →
      t.phases = Function.update s.phases p c → (t.idle ≠ [] → s.idle ≠ []) → t.reaping = s.reaping →
        t.Watched := by
    intro t c ha hphases hidle hsame hne
    refine (hwatched (hidle hne)).imp hsame.trans ?_
    rintro ⟨q, hq⟩
    have hqp : q ≠ p := by
      rintro rfl
      rw [ha] at hq
      cases hq
    exact ⟨q, by rw [hphases, Function.update_of_ne hqp, hq]⟩
  cases h with
  | walk _ hwalk => exact hstill hwalk.covered rfl id rfl
  | close _ hwalk => exact hstill hwalk.covered rfl id rfl
  | create ha | discard ha | plan ha => exact hstill (by rw [ha]; rfl) rfl id rfl
  | take ha hidle => exact hstill (by rw [ha]; rfl) rfl (fun _ ↦ by rw [hidle]; exact List.cons_ne_nil _ _) rfl
  | pool => exact fun _ ↦ .inr ⟨p, by rw [setPhase_phases, Function.update_self]; rfl⟩
  | flag => exact fun _ ↦ .inl rfl
  | unflag => exact fun _ ↦ .inr ⟨p, by rw [setPhase_phases, Function.update_self]; rfl⟩
  | empty => exact fun hne ↦ absurd rfl hne
  | expire ha =>
    refine hstill (by rw [ha]; rfl) rfl (fun hne hnil ↦ hne ?_) rfl
    exact congrArg (kept timeout s.now) hnil
  | finish ha => exact fun hne ↦ absurd (hparted p _ _ _ ha) hne

/-! ### Times -/

/-- The pool is ordered, the last returned first, and no sleep is planned beyond a connection's expiry. -/
structure State.Timed (timeout : ℤ) (s : State) : Prop where
  sorted : s.idle.Pairwise fun e f ↦ f.since ≤ e.since
  past : ∀ e ∈ s.idle, e.since ≤ s.now
  read : ∀ q batch entries read, s.phases q = .expired batch entries read →
    read ≤ s.now ∧ ∀ e ∈ entries, e.since ≤ read
  planned : ∀ q read wait, (s.phases q).plan = some (read, wait) →
    read ≤ s.now ∧ wait ≤ timeout ∧ ∀ e ∈ s.idle, read + wait ≤ e.since + timeout

/-- A step takes entries away or adds one that is returned now, and leaves the clock. -/
theorem Goes.entries (h : Goes timeout s p s') : s'.now = s.now ∧
    (s'.idle.Sublist s.idle ∨ ∃ connection, s'.idle = ⟨connection, s.now⟩ :: s.idle) := by
  cases h with
  | take _ hidle => exact ⟨rfl, .inl (hidle ▸ List.sublist_cons_self ..)⟩
  | pool => exact ⟨rfl, .inr ⟨_, rfl⟩⟩
  | empty => exact ⟨rfl, .inl (List.nil_sublist _)⟩
  | expire => exact ⟨rfl, .inl (List.filter_sublist ..)⟩
  | _ => exact ⟨rfl, .inl (.refl _)⟩

/-- A reaper plans to sleep until the oldest connection that it keeps expires. -/
theorem Goes.plans (h : Goes timeout s p s') {read wait : ℤ}
    (hplan : (s'.phases p).plan = some (read, wait)) : (s.phases p).plan = some (read, wait) ∨
      ∃ batch younger oldest, s.phases p = .expired batch (younger ++ [oldest]) read ∧
        wait = oldest.since + timeout - read := by
  have hnext : ∀ {t : State} {c : Phase}, ((t.setPhase p c).phases p).plan = some (read, wait) →
      c.plan = some (read, wait) := by
    intro t c hc
    rwa [setPhase_phases, Function.update_self] at hc
  cases h with
  | walk _ hwalk => exact .inl (hwalk.plan.elim (fun hnone ↦ nomatch hnone.symm.trans (hnext hplan))
      fun hsame ↦ hsame.symm.trans (hnext hplan))
  | close _ hwalk => exact .inl (hwalk.plan.elim (fun hnone ↦ nomatch hnone.symm.trans (hnext hplan))
      fun hsame ↦ hsame.symm.trans (hnext hplan))
  | create ha hb => rcases hb with rfl | rfl <;> cases hnext hplan
  | plan ha hentries =>
    subst hentries
    cases hnext hplan
    exact .inr ⟨_, _, _, ha, rfl⟩
  | flag =>
    have hnone : (Phase.flagged !s.reaping).plan = none := rfl
    exact nomatch hnone.symm.trans (hnext hplan)
  | _ => cases hnext hplan

theorem Goes.timed (h : Goes timeout s p s') (hparted : s.Partitioned) (htimed : s.Timed timeout) :
    s'.Timed timeout := by
  obtain ⟨hnow, hentries⟩ := h.entries
  obtain ⟨b, hphases, -⟩ := h.turn
  have hself : s'.phases p = b := by rw [hphases, Function.update_self]
  have hother : ∀ q, q ≠ p → s'.phases q = s.phases q := fun q hne ↦ by rw [hphases, Function.update_of_ne hne]
  have hpast : ∀ e ∈ s'.idle, e.since ≤ s.now := by
    rcases hentries with hsub | ⟨connection, hidle⟩
    · exact fun e he ↦ htimed.past e (hsub.subset he)
    · rw [hidle]
      exact List.forall_mem_cons.mpr ⟨le_refl _, htimed.past⟩
  -- an entry that is returned now expires no earlier than what a reaper has planned
  have hlater : ∀ read wait, read ≤ s.now → wait ≤ timeout →
      (∀ e ∈ s.idle, read + wait ≤ e.since + timeout) → ∀ e ∈ s'.idle, read + wait ≤ e.since + timeout := by
    intro read wait hread hwait hall
    rcases hentries with hsub | ⟨connection, hidle⟩
    · exact fun e he ↦ hall e (hsub.subset he)
    · rw [hidle]
      exact List.forall_mem_cons.mpr ⟨add_le_add hread hwait, hall⟩
  constructor
  · rcases hentries with hsub | ⟨connection, hidle⟩
    · exact htimed.sorted.sublist hsub
    · rw [hidle]
      exact List.pairwise_cons.mpr ⟨htimed.past, htimed.sorted⟩
  · rw [hnow]
    exact hpast
  · intro q batch entries read hq
    rw [hnow]
    rcases eq_or_ne q p with rfl | hne
    · obtain ⟨rfl, rfl⟩ := h.parts hq
      exact ⟨le_refl _, hpast⟩
    · exact htimed.read q batch entries read (hother q hne ▸ hq)
  · intro q read wait hplan
    rw [hnow]
    rcases eq_or_ne q p with rfl | hne
    · rcases h.plans hplan with hplan | ⟨batch, younger, oldest, hexpired, rfl⟩
      · obtain ⟨hread, hwait, hall⟩ := htimed.planned q read wait hplan
        exact ⟨hread, hwait, hlater read wait hread hwait hall⟩
      · obtain ⟨hread, hsince⟩ := htimed.read q _ _ read hexpired
        have hidle := hparted q _ _ read hexpired
        have holdest : oldest.since ≤ read := hsince oldest (by simp)
        have hfirst : ∀ e ∈ s.idle, oldest.since ≤ e.since := by
          have hsorted := htimed.sorted
          rw [hidle, List.pairwise_append] at hsorted
          rw [hidle]
          intro e he
          rcases List.mem_append.mp he with he | he
          · exact hsorted.2.2 e he oldest (List.mem_singleton_self _)
          · rw [List.mem_singleton.mp he]
        have hwait : oldest.since + timeout - read ≤ timeout := by omega
        exact ⟨hread, hwait, hlater read _ hread hwait fun e he ↦ by have := hfirst e he; omega⟩
    · obtain ⟨hread, hwait, hall⟩ := htimed.planned q read wait (hother q hne ▸ hplan)
      exact ⟨hread, hwait, hlater read wait hread hwait hall⟩

/-! ### The books -/

/-- What is known of the pool at any time. -/
structure Inv (timeout : ℤ) (s : State) : Prop where
  booked : s.Booked
  locked : s.Locked
  partitioned : s.Partitioned
  minded : s.Minded
  watched : s.Watched
  timed : s.Timed timeout

theorem Inv.go (h : Inv timeout s) (hgoes : Goes timeout s p s') : Inv timeout s' where
  booked := hgoes.booked h.booked
  locked := hgoes.locked h.locked
  partitioned := hgoes.partitioned h.locked h.partitioned
  minded := hgoes.minded h.minded
  watched := hgoes.watched h.partitioned h.watched
  timed := hgoes.timed h.partitioned h.timed

theorem Inv.tick (h : Inv timeout s) (duration : ℕ) : Inv timeout { s with now := s.now + duration } where
  booked := h.booked
  locked := h.locked
  partitioned := h.partitioned
  minded := ⟨h.minded.minder, h.minded.said, h.minded.alone⟩
  watched := h.watched
  timed :=
    { sorted := h.timed.sorted
      past := fun e he ↦ le_trans (h.timed.past e he) (by simp)
      read := fun q batch entries read hq ↦ by
        obtain ⟨hread, hall⟩ := h.timed.read q batch entries read hq
        exact ⟨le_trans hread (by simp), hall⟩
      planned := fun q read wait hq ↦ by
        obtain ⟨hread, hrest⟩ := h.timed.planned q read wait hq
        exact ⟨le_trans hread (by simp), hrest⟩ }

/-- A fork changes two threads, and nothing of them but what is said. -/
theorem fork_phases {α : Type*} (f : Phase → α) (hp : s.phases p = .forking) (hr : s.phases r = .outside)
    (houtside : f .outside = f .forking) (hreaper : f .reaper = f .outside) :
    f (((s.setPhase p .outside).setPhase r .reaper).phases q) = f (s.phases q) := by
  rw [setPhase_phases, setPhase_phases]
  rcases eq_or_ne q r with rfl | hqr
  · rw [Function.update_self, hreaper, hr]
  · rw [Function.update_of_ne hqr]
    rcases eq_or_ne q p with rfl | hqp
    · rw [Function.update_self, houtside, hp]
    · rw [Function.update_of_ne hqp]

theorem State.Minded.fork (h : s.Minded) (hp : s.phases p = .forking) :
    ((s.setPhase p .outside).setPhase r .reaper).Minded := by
  have hminds : (s.phases p).minds = true := by rw [hp]; rfl
  have hset : s.reaping = true := h.said p hminds
  have hself : ((s.setPhase p .outside).setPhase r .reaper).phases r = .reaper := Function.update_self ..
  have honly : ∀ q, (((s.setPhase p .outside).setPhase r .reaper).phases q).minds = true → q = r := by
    intro q hq
    by_contra hqr
    rw [setPhase_phases, Function.update_of_ne hqr, setPhase_phases] at hq
    rcases eq_or_ne q p with rfl | hqp
    · rw [Function.update_self] at hq
      cases hq
    · rw [Function.update_of_ne hqp] at hq
      exact hqp (h.alone q p hq hminds)
  exact ⟨fun _ ↦ ⟨r, by rw [hself]; rfl⟩, fun _ _ ↦ hset, fun q q' hq hq' ↦ (honly q hq).trans (honly q' hq').symm⟩

theorem Inv.fork (h : Inv timeout s) (hp : s.phases p = .forking) (hr : s.phases r = .outside) :
    Inv timeout ((s.setPhase p .outside).setPhase r .reaper) where
  booked := h.booked.congr fun k ↦ by
    cases k with
    | idle => rfl
    | closed => rfl
    | request q => exact congrArg Option.toList (fork_phases Phase.used hp hr rfl rfl)
    | closer q => exact fork_phases Phase.condemned hp hr rfl rfl
  locked q := by
    rw [fork_phases Phase.locked hp hr rfl rfl]
    exact h.locked q
  partitioned q batch entries read hq := by
    have hsame := fork_phases (fun a ↦ a = .expired batch entries read) (q := q) hp hr (by simp) (by simp)
    exact h.partitioned q batch entries read (hsame.mp hq)
  minded := h.minded.fork hp
  watched hne := by
    simp only [fork_phases Phase.exposed hp hr rfl rfl]
    exact h.watched hne
  timed :=
    { sorted := h.timed.sorted
      past := h.timed.past
      read := fun q batch entries read hq ↦ by
        have hsame := fork_phases (fun a ↦ a = .expired batch entries read) (q := q) hp hr (by simp) (by simp)
        exact h.timed.read q batch entries read (hsame.mp hq)
      planned := fun q read wait hq ↦ by
        rw [fork_phases Phase.plan hp hr rfl rfl] at hq
        exact h.timed.planned q read wait hq }

theorem Inv.step {event : Event} (h : Inv timeout s) (hstep : step timeout s event = some s') : Inv timeout s' := by
  cases event with
  | tick duration =>
    cases hstep
    exact h.tick duration
  | go p ok => exact h.go (goes_of_go hstep)
  | fork p r =>
    rw [Http.step] at hstep
    split_ifs at hstep with hphases
    cases hstep
    exact h.fork hphases.1 hphases.2

end Steps

theorem inv_initial (timeout start : ℤ) : Inv timeout (machine timeout start).initial where
  booked :=
    { held := fun a ↦ ⟨fun ha ↦ absurd ha (Nat.not_lt_zero a), fun ⟨k, hk⟩ ↦ by cases k <;> cases hk⟩
      nodup := fun k ↦ by cases k <;> exact List.nodup_nil
      alone := fun k _ _ hk ↦ by cases k <;> cases hk }
  locked _ := ⟨nofun, nofun⟩
  partitioned _ _ _ _ hq := nomatch hq
  minded := ⟨nofun, fun _ hq ↦ (nomatch hq), fun _ _ hq ↦ (nomatch hq)⟩
  watched hne := absurd rfl hne
  timed := ⟨.nil, nofun, fun _ _ _ _ hq ↦ (nomatch hq), fun _ _ _ hq ↦ (nomatch hq)⟩

theorem inv {timeout start : ℤ} {s : State} (h : (machine timeout start).Reachable s) : Inv timeout s :=
  h.invariant (inv_initial timeout start) fun _ _ _ _ hinv hstep ↦ hinv.step hstep

/-- Outside the sections of the lock, a thread because of which a reaper is said to be there is one, or a thread
that has set the flag and not started a reaper yet. -/
theorem Phase.reaps_or_starts {a : Phase} (hminds : a.minds = true) (hlock : a.locked = false) :
    a.reaps = true ∨ a = .forking ∨ a = .unforked := by
  cases a with
  | forking => exact .inr (.inl rfl)
  | unforked => exact .inr (.inr rfl)
  | flagged | unflagging => cases hlock
  | _ => exact .inl (by simpa [Phase.minds, Phase.starts] using hminds)

/-- A step closes at most one connection, which a thread had taken to close it. -/
theorem closed_of_step {timeout : ℤ} {s s' : State} {event : Event} (h : step timeout s event = some s') :
    s'.closed = s.closed ∨ ∃ p connection, connection ∈ (s.phases p).condemned ∧
      s'.closed = connection :: s.closed := by
  cases event with
  | tick duration =>
    cases h
    exact .inl rfl
  | go p ok =>
    cases goes_of_go h with
    | close _ _ hcondemned => exact .inr ⟨p, _, by rw [hcondemned]; exact List.mem_cons_self, rfl⟩
    | _ => exact .inl rfl
  | fork p r =>
    rw [step] at h
    split_ifs at h
    cases h
    exact .inl rfl

/-- At any time each connection that was created is in use by one request, or once in the pool, or with one
thread that is going to close it, or closed, once; what is closed stays closed, and no request gets it. The
pool is ordered by time of return, the last first. While it holds connections and no section of the lock is
under way, a reaper is there or a thread that is to start one, or has failed to and is to empty the pool. One
reaper at most goes on. A reaper sleeps until the oldest connection in the pool expires, and as much longer as
it took from reading the clock to falling asleep. -/
theorem pool_keeps_books {timeout start : ℤ} {s : State} (h : (machine timeout start).Reachable s) :
    (∀ connection, connection < s.created → ∃! k, connection ∈ s.holdings k) ∧
    (∀ k connection, connection ∈ s.holdings k → connection < s.created) ∧ (∀ k, (s.holdings k).Nodup) ∧
    (∀ event s', step timeout s event = some s' → s'.closed = s.closed ∨
      ∃ p connection, connection ∈ (s.phases p).condemned ∧ s'.closed = connection :: s.closed) ∧
    (∀ p connection, (s.phases p).used = some connection → connection ∉ s.closed) ∧
    s.idle.Pairwise (fun e f ↦ f.since ≤ e.since) ∧
    (s.lock = none → s.idle ≠ [] → ∃ p, (s.phases p).reaps = true ∨ s.phases p = .forking ∨
      s.phases p = .unforked) ∧
    (∀ p q, (s.phases p).reaps = true → (s.phases q).reaps = true → p = q) ∧
    ∀ p read began wait, s.phases p = .sleeping read began wait →
      ∀ e ∈ s.idle, began + wait ≤ e.since + timeout + (began - read) := by
  have hinv := inv h
  have hminds : ∀ p, (s.phases p).reaps = true → (s.phases p).minds = true := fun p hp ↦ by
    rw [Phase.minds, hp, Bool.true_or]
  refine ⟨fun connection hlt ↦ hinv.booked.existsUnique hlt, fun k connection hmem ↦ ?_, hinv.booked.nodup,
    fun event s' hstep ↦ closed_of_step hstep, fun p connection hused ↦ ?_, hinv.timed.sorted, fun hlock hidle ↦ ?_,
    fun p q hp hq ↦ hinv.minded.alone p q (hminds p hp) (hminds q hq), fun p read began wait hp e he ↦ ?_⟩
  · exact (hinv.booked.held connection).mpr ⟨k, hmem⟩
  · have hmem : connection ∈ s.holdings (.request p) := by
      rw [State.holdings, hused]
      exact List.mem_singleton_self _
    exact hinv.booked.notMem hmem (nofun : Holder.request p ≠ .closed)
  · have hfree : ∀ p, (s.phases p).locked = false := fun p ↦
      Bool.eq_false_iff.mpr fun hp ↦ nomatch hlock.symm.trans ((hinv.locked p).mp hp)
    have hreaping : s.reaping = true := by
      refine (hinv.watched hidle).resolve_right ?_
      rintro ⟨p, hp⟩
      have hsection := hfree p
      cases ha : s.phases p <;> rw [ha] at hp hsection <;> cases hp <;> cases hsection
    obtain ⟨p, hp⟩ := hinv.minded.minder hreaping
    exact ⟨p, Phase.reaps_or_starts hp (hfree p)⟩
  · have hplan := (hinv.timed.planned p read wait (by rw [hp]; rfl)).2.2 e he
    omega

/-! ### Runs of a request and its reaper -/

def gos (p count : ℕ) : List Event := List.replicate count (.go p true)

/-- A thread returns its connection, and the reaper falls asleep some time after it read the clock. -/
def sleepingRun : List Event := gos 0 9 ++ [.fork 0 1] ++ gos 1 4 ++ [.tick 5] ++ gos 1 1

/-- The reaper wakes up and finds the pool empty; while it is closing what has expired, the thread returns
another connection and starts another reaper. -/
def overlappingRun : List Event := sleepingRun ++ [.tick 10] ++ gos 1 5 ++ gos 0 9 ++ [.fork 0 2]

/-- A thread returns its connection, and its fork fails. -/
def unforkedRun : List Event := gos 0 9 ++ [.go 0 false]

theorem sleepingRun_isSome : ((machine 10 0).run (machine 10 0).initial sleepingRun).isSome := by
  decide +kernel

theorem overlappingRun_isSome : ((machine 10 0).run (machine 10 0).initial overlappingRun).isSome := by
  decide +kernel

theorem unforkedRun_isSome : ((machine 10 0).run (machine 10 0).initial unforkedRun).isSome := by
  decide +kernel

def sleepingState : State := ((machine 10 0).run (machine 10 0).initial sleepingRun).get sleepingRun_isSome

def overlappingState : State :=
  ((machine 10 0).run (machine 10 0).initial overlappingRun).get overlappingRun_isSome

def unforkedState : State := ((machine 10 0).run (machine 10 0).initial unforkedRun).get unforkedRun_isSome

theorem pool_keeps_books_sleepingState : sleepingState.idle.Pairwise (fun e f ↦ f.since ≤ e.since) ∧
    (∃ p, (sleepingState.phases p).reaps = true ∨ sleepingState.phases p = .forking ∨
      sleepingState.phases p = .unforked) ∧
    ∀ e ∈ sleepingState.idle, 5 + 10 ≤ e.since + 10 + (5 - 0) := by
  obtain ⟨-, -, -, -, -, hsorted, hreaper, -, hsleep⟩ :=
    pool_keeps_books (Machine.reachable_of_run sleepingRun_isSome)
  exact ⟨hsorted, hreaper (by decide +kernel) (by decide +kernel), hsleep 1 0 5 10 (by decide +kernel)⟩

/-- A connection can be neither in use nor in the pool nor closed, while two reapers are there: the first has
said that none is there and is closing what it took. A reaper that sleeps can wake after a connection's expiry.
When a fork has failed, the pool holds a connection and no reaper is there. -/
theorem books_not_kept : ∃ s t u : State,
    ((machine 10 0).Reachable s ∧ (machine 10 0).Reachable t ∧ (machine 10 0).Reachable u) ∧
    (0 < s.created ∧ (∀ p, (s.phases p).used ≠ some 0) ∧ 0 ∉ s.idle.map Entry.connection ∧ 0 ∉ s.closed) ∧
    (s.phases 1 = .closing [0] 15 none ∧ s.phases 2 = .reaper) ∧
    (t.phases 1 = .sleeping 0 5 10 ∧ ∃ e ∈ t.idle, e.since + 10 < 5 + 10) ∧
    u.idle ≠ [] ∧ u.lock = none ∧ u.phases 0 = .unforked ∧ ∀ p, (u.phases p).reaps = false := by
  have hs := Machine.reachable_of_run overlappingRun_isSome
  have hu := Machine.reachable_of_run unforkedRun_isSome
  have hclosing : overlappingState.phases 1 = .closing [0] 15 none := by decide +kernel
  have hunforked : unforkedState.phases 0 = .unforked := by decide +kernel
  have hheld : 0 ∈ overlappingState.holdings (.closer 1) := by
    rw [State.holdings, hclosing]
    exact List.mem_singleton_self _
  have hbooked : overlappingState.Booked := (inv hs).booked
  refine ⟨overlappingState, sleepingState, unforkedState,
    ⟨hs, Machine.reachable_of_run sleepingRun_isSome, hu⟩, ⟨by decide +kernel, fun p hp ↦ ?_, ?_, ?_⟩,
    ⟨hclosing, by decide +kernel⟩, ⟨by decide +kernel, ⟨0, 0⟩, by decide +kernel, by decide⟩,
    by decide +kernel, by decide +kernel, hunforked, fun p ↦ Bool.eq_false_iff.mpr fun hp ↦ ?_⟩
  · refine hbooked.notMem hheld (nofun : Holder.closer 1 ≠ .request p) ?_
    rw [State.holdings, hp]
    exact List.mem_singleton_self _
  · exact hbooked.notMem hheld (nofun : Holder.closer 1 ≠ .idle)
  · exact hbooked.notMem hheld (nofun : Holder.closer 1 ≠ .closed)
  · have hminded : unforkedState.Minded := (inv hu).minded
    have hsame : p = 0 := hminded.alone p 0 (by rw [Phase.minds, hp, Bool.true_or]) (by rw [hunforked]; rfl)
    rw [hsame, hunforked] at hp
    cases hp

end Holbuild.Http
