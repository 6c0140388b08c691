import Holbuild.Library.Machine
import Mathlib.Data.List.Count
import Mathlib.Data.List.Pairwise
import Mathlib.Algebra.Order.Group.Nat
import Mathlib.Algebra.Ring.Nat

/-!
# The background pool

`start_background_pool` of `build_exec.sml`. `add` either starts a thread for its item or puts it into the
queue, and a thread that is done with an item takes the next one or ends. What happens under the pool's
mutex is one step, and so are the fork of a thread, the begin and the end of its work, which may raise.
`drain` and `stop` wait until no thread is active.

The items are numbered in the order in which they were added; the code keeps no numbers, and no step
depends on them. `Seen` is what is observed of the items along a run.

`Accounted` balances what was observed with the items that are queued or with a thread, `Ordered` is the
order in which the items are handed to threads, and `Staffed` says that an item is queued only while all
threads are busy. `pool_correct` is the result.
-/

set_option autoImplicit false
set_option relaxedAutoImplicit false

namespace Holbuild.ParallelBuild.Background

open Library

/-! ### The pool -/

/-- An item, and how many were added before it. -/
structure Item (α : Type) where
  number : ℕ
  value : α
deriving DecidableEq

/-- A thread that counts as active: `add` is about to fork it, it has an item, works on it, or is done with
it. -/
inductive Worker (α : Type)
  | forking (item : Item α)
  | ready (item : Item α)
  | working (item : Item α)
  | between
deriving DecidableEq

/-- The references of the pool, its active threads, and the calls of `drain` and `stop` that wait. -/
structure Pool (α : Type) where
  front : List (Item α)
  back : List (Item α)
  active : ℤ
  stopped : Bool
  workers : List (Worker α)
  draining : ℕ
  stopping : ℕ
  added : ℕ

/-- A call of `add` up to its fork, a fork that succeeds or raises, the begin and the end of the work on an
item, the next item of a thread, and the begin and the end of calls of `drain` and `stop`. -/
inductive Event (α : Type)
  | add (value : α)
  | fork (i : ℕ)
  | forkRaises (i : ℕ)
  | start (i : ℕ)
  | finish (i : ℕ) (raised : Bool)
  | next (i : ℕ)
  | drain
  | drained
  | stop
  | stopReturns

variable {α : Type} {limit : ℕ} {s s' : Pool α} {event : Event α}

namespace Pool

/-- The items that wait, the next one first. -/
def queue (s : Pool α) : List (Item α) := s.front ++ s.back.reverse

/-- The next item, and the pool without it. -/
def pop (s : Pool α) : Option (Item α) × Pool α :=
  match s.front with
  | item :: rest => (some item, { s with front := rest })
  | [] =>
    match s.back.reverse with
    | [] => (none, s)
    | item :: rest => (some item, { s with front := rest, back := [] })

/-- What `add` does under the mutex. -/
def add (limit : ℕ) (value : α) (s : Pool α) : Pool α :=
  if s.stopped then s
  else if s.active < limit then { s with
    active := s.active + 1
    workers := s.workers ++ [.forking ⟨s.added, value⟩]
    added := s.added + 1 }
  else { s with back := ⟨s.added, value⟩ :: s.back, added := s.added + 1 }

/-- What a thread that is done with an item does under the mutex. -/
def next (i : ℕ) (s : Pool α) : Pool α :=
  match s.pop with
  | (some item, s) => { s with workers := s.workers.set i (.ready item) }
  | (none, s) => { s with active := s.active - 1, workers := s.workers.eraseIdx i }

/-- One event. -/
def step (limit : ℕ) (s : Pool α) : Event α → Option (Pool α)
  | .add value => some (s.add limit value)
  | .fork i =>
    match s.workers[i]? with
    | some (.forking item) => some { s with workers := s.workers.set i (.ready item) }
    | _ => none
  | .forkRaises i =>
    match s.workers[i]? with
    | some (.forking _) => some { s with active := s.active - 1, workers := s.workers.eraseIdx i }
    | _ => none
  | .start i =>
    match s.workers[i]? with
    | some (.ready item) => some { s with workers := s.workers.set i (.working item) }
    | _ => none
  | .finish i _ =>
    match s.workers[i]? with
    | some (.working _) => some { s with workers := s.workers.set i .between }
    | _ => none
  | .next i =>
    match s.workers[i]? with
    | some .between => some (s.next i)
    | _ => none
  | .drain => some { s with draining := s.draining + 1 }
  | .drained =>
    if 0 < s.draining ∧ ¬ 0 < s.active then some { s with draining := s.draining - 1 } else none
  | .stop => some { s with stopped := true, front := [], back := [], stopping := s.stopping + 1 }
  | .stopReturns =>
    if 0 < s.stopping ∧ ¬ 0 < s.active then some { s with stopping := s.stopping - 1 } else none

end Pool

/-- A pool with nothing to do. -/
def backgroundPool (α : Type) (limit : ℕ) : Machine (Pool α) (Event α) where
  initial := ⟨[], [], 0, false, [], 0, 0, 0⟩
  step := Pool.step limit

/-- Every event but a fork that raises. -/
def Event.forks : Event α → Bool
  | .forkRaises _ => false
  | _ => true

/-- The pool while threads can be forked. -/
def forkingPool (α : Type) (limit : ℕ) : Machine (Pool α) (Event α) :=
  (backgroundPool α limit).guard fun _ event ↦ event.forks = true

/-! ### What is observed of items -/

/-- An item is added, handed to a thread, begun, over, or dropped by `stop`. -/
inductive Seen
  | added (number : ℕ)
  | handed (number : ℕ)
  | started (number : ℕ)
  | finished (number : ℕ)
  | dropped (number : ℕ)
deriving DecidableEq

def observe (limit : ℕ) (s : Pool α) : Event α → List Seen
  | .add _ =>
    if s.stopped then []
    else if s.active < limit then [.added s.added, .handed s.added]
    else [.added s.added]
  | .start i =>
    match s.workers[i]? with
    | some (.ready item) => [.started item.number]
    | _ => []
  | .finish i _ =>
    match s.workers[i]? with
    | some (.working item) => [.finished item.number]
    | _ => []
  | .next _ =>
    match s.pop with
    | (some item, _) => [.handed item.number]
    | (none, _) => []
  | .stop => s.queue.map fun item ↦ .dropped item.number
  | _ => []

def Seen.handedNumber : Seen → Option ℕ
  | .handed number => some number
  | _ => none

def Seen.startedNumber : Seen → Option ℕ
  | .started number => some number
  | _ => none

/-- The items in the order in which they were handed to threads. -/
def handedOrder (log : List Seen) : List ℕ := log.filterMap Seen.handedNumber

/-- The items in the order in which the work on them began. -/
def startedOrder (log : List Seen) : List ℕ := log.filterMap Seen.startedNumber

/-- The item that a thread has not begun yet. -/
def Worker.waiting : Worker α → Option ℕ
  | .forking item => some item.number
  | .ready item => some item.number
  | _ => none

/-- The item that a thread works on. -/
def Worker.current : Worker α → Option ℕ
  | .working item => some item.number
  | _ => none

/-! ### What a step can do -/

theorem Pool.pop_cases (s : Pool α) :
    s.queue = [] ∧ s.pop = (none, s) ∨
      ∃ item rest front back, s.queue = item :: rest ∧ front ++ back.reverse = rest ∧
        s.pop = (some item, { s with front := front, back := back }) := by
  unfold Pool.pop Pool.queue
  cases hfront : s.front with
  | cons item rest => exact .inr ⟨item, _, rest, s.back, rfl, rfl, rfl⟩
  | nil =>
    cases hback : s.back.reverse with
    | nil => exact .inl ⟨rfl, rfl⟩
    | cons item rest => exact .inr ⟨item, rest, rest, [], rfl, List.append_nil _, rfl⟩

/-- How a thread goes on by itself, and what is observed of it. -/
inductive Moves : Worker α → List Seen → Worker α → Prop
  | forked (item : Item α) : Moves (.forking item) [] (.ready item)
  | started (item : Item α) : Moves (.ready item) [.started item.number] (.working item)
  | finished (item : Item α) : Moves (.working item) [.finished item.number] .between

/-- What a step changes of the queue, the count of active threads, the threads and the count of items,
and what is observed of it. -/
inductive Change (limit : ℕ) (s s' : Pool α) : List Seen → Prop
  | waits (hqueue : s'.queue = s.queue) (hactive : s'.active = s.active)
    (hstopped : s'.stopped = s.stopped) (hworkers : s'.workers = s.workers)
    (hadded : s'.added = s.added) : Change limit s s' []
  | begins (value : α) (hrunning : s.stopped = false) (hfree : s.active < limit)
    (hqueue : s'.queue = s.queue) (hactive : s'.active = s.active + 1)
    (hstopped : s'.stopped = s.stopped)
    (hworkers : s'.workers = s.workers ++ [.forking ⟨s.added, value⟩])
    (hadded : s'.added = s.added + 1) : Change limit s s' [.added s.added, .handed s.added]
  | queues (value : α) (hrunning : s.stopped = false) (hbusy : ¬ s.active < limit)
    (hqueue : s'.queue = s.queue ++ [⟨s.added, value⟩]) (hactive : s'.active = s.active)
    (hstopped : s'.stopped = s.stopped) (hworkers : s'.workers = s.workers)
    (hadded : s'.added = s.added + 1) : Change limit s s' [.added s.added]
  | moves {w w' : Worker α} {seen : List Seen} (hmoves : Moves w seen w') (before after : List (Worker α))
    (hbefore : s.workers = before ++ w :: after) (hqueue : s'.queue = s.queue)
    (hactive : s'.active = s.active) (hstopped : s'.stopped = s.stopped)
    (hworkers : s'.workers = before ++ w' :: after) (hadded : s'.added = s.added) :
    Change limit s s' seen
  | continues (item : Item α) (before after : List (Worker α))
    (hbefore : s.workers = before ++ .between :: after) (hqueue : s.queue = item :: s'.queue)
    (hactive : s'.active = s.active) (hstopped : s'.stopped = s.stopped)
    (hworkers : s'.workers = before ++ .ready item :: after) (hadded : s'.added = s.added) :
    Change limit s s' [.handed item.number]
  | ends (before after : List (Worker α)) (hbefore : s.workers = before ++ .between :: after)
    (hempty : s.queue = []) (hqueue : s'.queue = []) (hactive : s'.active = s.active - 1)
    (hstopped : s'.stopped = s.stopped) (hworkers : s'.workers = before ++ after)
    (hadded : s'.added = s.added) : Change limit s s' []
  | stops (hqueue : s'.queue = []) (hactive : s'.active = s.active) (hstopped : s'.stopped = true)
    (hworkers : s'.workers = s.workers) (hadded : s'.added = s.added) :
    Change limit s s' (s.queue.map fun item ↦ .dropped item.number)

/-- A member of a list, with what stands before and after it. -/
theorem exists_split {workers : List (Worker α)} {i : ℕ} {w : Worker α} (h : workers[i]? = some w) :
    ∃ before after, workers = before ++ w :: after ∧
      (∀ w', workers.set i w' = before ++ w' :: after) ∧ workers.eraseIdx i = before ++ after := by
  obtain ⟨hi, hw⟩ := List.getElem?_eq_some_iff.mp h
  have hsplit : workers = workers.take i ++ w :: workers.drop (i + 1) := by
    rw [← hw, ← List.drop_eq_getElem_cons hi, List.take_append_drop]
  refine ⟨workers.take i, workers.drop (i + 1), hsplit, fun w' ↦ ?_, List.eraseIdx_eq_take_drop_succ ..⟩
  exact List.set_eq_take_append_cons_drop.trans (if_pos hi)

theorem change_of_step (h : (forkingPool α limit).step s event = some s') :
    Change limit s s' (observe limit s event) := by
  obtain ⟨hforks, hstep⟩ := Machine.guard_step.mp h
  change Pool.step limit s event = some s' at hstep
  cases event with
  | add value =>
    obtain rfl := Option.some.inj hstep
    rw [observe]
    unfold Pool.add
    split_ifs with hstopped hfree
    · exact .waits rfl rfl rfl rfl rfl
    · exact .begins value (by simpa using hstopped) hfree rfl rfl rfl rfl rfl
    · refine .queues value (by simpa using hstopped) hfree ?_ rfl rfl rfl rfl
      simp [Pool.queue]
  | fork i =>
    simp only [Pool.step] at hstep
    split at hstep
    · next item hw =>
      obtain ⟨before, after, hbefore, hset, -⟩ := exists_split hw
      obtain rfl := Option.some.inj hstep
      exact .moves (.forked item) before after hbefore rfl rfl rfl (hset _) rfl
    · cases hstep
  | forkRaises i => cases hforks
  | start i =>
    simp only [Pool.step] at hstep
    split at hstep
    · next item hw =>
      obtain ⟨before, after, hbefore, hset, -⟩ := exists_split hw
      obtain rfl := Option.some.inj hstep
      have hseen : observe limit s (.start i) = [.started item.number] := by simp [observe, hw]
      rw [hseen]
      exact .moves (.started item) before after hbefore rfl rfl rfl (hset _) rfl
    · cases hstep
  | finish i raised =>
    simp only [Pool.step] at hstep
    split at hstep
    · next item hw =>
      obtain ⟨before, after, hbefore, hset, -⟩ := exists_split hw
      obtain rfl := Option.some.inj hstep
      have hseen : observe limit s (.finish i raised) = [.finished item.number] := by simp [observe, hw]
      rw [hseen]
      exact .moves (.finished item) before after hbefore rfl rfl rfl (hset _) rfl
    · cases hstep
  | next i =>
    simp only [Pool.step] at hstep
    split at hstep
    · next hw =>
      obtain ⟨before, after, hbefore, hset, herase⟩ := exists_split hw
      obtain rfl := Option.some.inj hstep
      rcases s.pop_cases with ⟨hempty, hpop⟩ | ⟨item, rest, front, back, hqueue, hrest, hpop⟩
      · rw [observe, Pool.next, hpop]
        exact .ends before after hbefore hempty hempty rfl rfl herase rfl
      · rw [observe, Pool.next, hpop]
        exact .continues item before after hbefore (hqueue.trans (congrArg _ hrest.symm)) rfl rfl
          (hset _) rfl
    · cases hstep
  | drain =>
    obtain rfl := Option.some.inj hstep
    exact .waits rfl rfl rfl rfl rfl
  | drained =>
    simp only [Pool.step] at hstep
    split_ifs at hstep
    obtain rfl := Option.some.inj hstep
    exact .waits rfl rfl rfl rfl rfl
  | stop =>
    obtain rfl := Option.some.inj hstep
    exact .stops rfl rfl rfl rfl rfl
  | stopReturns =>
    simp only [Pool.step] at hstep
    split_ifs at hstep
    obtain rfl := Option.some.inj hstep
    exact .waits rfl rfl rfl rfl rfl

/-! ### The invariants -/

/-- An item is queued only while as many threads are active as may be. -/
structure Staffed (limit : ℕ) (s : Pool α) : Prop where
  active : s.active = s.workers.length
  crew : s.workers.length ≤ limit
  busy : s.queue ≠ [] → s.workers.length = limit
  stopped : s.stopped = true → s.queue = []

/-- The items that threads have not begun. -/
def Pool.waiting (s : Pool α) : List ℕ := s.workers.filterMap Worker.waiting

/-- The items that threads work on. -/
def Pool.current (s : Pool α) : List ℕ := s.workers.filterMap Worker.current

def Pool.queued (s : Pool α) : List ℕ := s.queue.map Item.number

/-- What was observed of an item, against where it is now. -/
structure Accounted (log : List Seen) (s : Pool α) (n : ℕ) : Prop where
  added : log.count (.added n) = if n < s.added then 1 else 0
  handed : log.count (.handed n) + log.count (.dropped n) + s.queued.count n = log.count (.added n)
  started : log.count (.started n) + s.waiting.count n = log.count (.handed n)
  finished : log.count (.finished n) + s.current.count n = log.count (.started n)

/-- Items are handed to threads in the order in which they were added, and one thread alone begins them in
this order. -/
structure Ordered (limit : ℕ) (log : List Seen) (s : Pool α) : Prop where
  increasing : (handedOrder log ++ s.queued).Pairwise (· < ·)
  below : ∀ n ∈ handedOrder log ++ s.queued, n < s.added
  alone : limit ≤ 1 → startedOrder log ++ s.waiting = handedOrder log

theorem Staffed.change {seen : List Seen} (h : Staffed limit s) (hchange : Change limit s s' seen) :
    Staffed limit s' := by
  have hactive := h.active
  have hcrew := h.crew
  cases hchange with
  | waits hqueue hactive' hstopped hworkers hadded =>
    exact ⟨by rw [hactive', hworkers, h.active], hworkers ▸ h.crew,
      hqueue ▸ hworkers ▸ h.busy, hqueue ▸ hstopped ▸ h.stopped⟩
  | begins value hrunning hfree hqueue hactive' hstopped hworkers hadded =>
    have hempty : s.queue = [] := by
      by_contra hne
      have := h.busy hne
      omega
    refine ⟨?_, ?_, fun hne ↦ absurd (hqueue.trans hempty) hne, fun _ ↦ hqueue.trans hempty⟩
    · rw [hactive', hworkers, List.length_append, List.length_singleton]
      omega
    · rw [hworkers, List.length_append, List.length_singleton]
      omega
  | queues value hrunning hbusy hqueue hactive' hstopped hworkers hadded =>
    refine ⟨by rw [hactive', hworkers, h.active], hworkers ▸ h.crew, fun _ ↦ ?_, fun htrue ↦ ?_⟩
    · rw [hworkers]
      omega
    · rw [hstopped, hrunning] at htrue
      cases htrue
  | moves hmoves before after hbefore hqueue hactive' hstopped hworkers hadded =>
    have hlength : s'.workers.length = s.workers.length := by simp [hworkers, hbefore]
    exact ⟨by rw [hactive', hlength, h.active], hlength ▸ h.crew, hqueue ▸ hlength ▸ h.busy,
      hqueue ▸ hstopped ▸ h.stopped⟩
  | continues item before after hbefore hqueue hactive' hstopped hworkers hadded =>
    have hlength : s'.workers.length = s.workers.length := by simp [hworkers, hbefore]
    have hne : s.queue ≠ [] := by rw [hqueue]; exact List.cons_ne_nil _ _
    refine ⟨by rw [hactive', hlength, h.active], hlength ▸ h.crew, fun _ ↦ hlength ▸ h.busy hne,
      fun htrue ↦ absurd (h.stopped (hstopped ▸ htrue)) hne⟩
  | ends before after hbefore hempty hqueue hactive' hstopped hworkers hadded =>
    have hlength : s'.workers.length + 1 = s.workers.length := by
      rw [hworkers, hbefore]
      simp
      omega
    exact ⟨by rw [hactive']; omega, by omega, fun hne ↦ absurd hqueue hne, fun _ ↦ hqueue⟩
  | stops hqueue hactive' hstopped hworkers hadded =>
    exact ⟨by rw [hactive', hworkers, h.active], hworkers ▸ h.crew, fun hne ↦ absurd hqueue hne,
      fun _ ↦ hqueue⟩

/-! ### Each item is accounted for -/

/-- What one thread adds to a count over all threads. -/
theorem count_filterMap_cons (f : Worker α → Option ℕ) (before after : List (Worker α)) (w : Worker α)
    (n : ℕ) : ((before ++ w :: after).filterMap f).count n =
      ((before ++ after).filterMap f).count n + (f w).toList.count n := by
  rw [List.filterMap_append, List.filterMap_append, List.filterMap_cons, List.count_append,
    List.count_append]
  cases f w with
  | none => rfl
  | some m =>
    rw [Option.toList_some, List.count_cons, List.count_singleton]
    omega

/-- The items dropped by `stop` are those that are queued. -/
theorem count_dropped (queue : List (Item α)) (n : ℕ) :
    (queue.map fun item ↦ Seen.dropped item.number).count (.dropped n) = (queue.map Item.number).count n ∧
      ∀ seen, (∀ m, seen ≠ .dropped m) → (queue.map fun item ↦ Seen.dropped item.number).count seen = 0 := by
  constructor
  · have hinj : Function.Injective Seen.dropped := fun a b hab ↦ Seen.dropped.inj hab
    rw [← List.count_map_of_injective _ _ hinj n, List.map_map]
    rfl
  · intro seen hseen
    refine List.count_eq_zero_of_not_mem fun hmem ↦ ?_
    obtain ⟨item, -, hitem⟩ := List.mem_map.mp hmem
    exact hseen _ hitem.symm

theorem Accounted.change {log seen : List Seen} {n : ℕ} (h : Accounted log s n)
    (hchange : Change limit s s' seen) : Accounted (log ++ seen) s' n := by
  obtain ⟨hadded, hhanded, hstarted, hfinished⟩ := h
  cases hchange with
  | waits hqueue hactive hstopped hworkers hcount =>
    constructor
    · rwa [List.append_nil, hcount]
    · rwa [List.append_nil, Pool.queued, hqueue]
    · rwa [List.append_nil, Pool.waiting, hworkers]
    · rwa [List.append_nil, Pool.current, hworkers]
  | begins value hrunning hfree hqueue hactive hstopped hworkers hcount =>
    have hwaiting : s'.waiting.count n = s.waiting.count n + [s.added].count n := by
      rw [Pool.waiting, hworkers, count_filterMap_cons, List.append_nil]
      rfl
    have hcurrent : s'.current.count n = s.current.count n := by
      rw [Pool.current, hworkers, count_filterMap_cons, List.append_nil]
      rfl
    have hqueued : s'.queued = s.queued := by rw [Pool.queued, hqueue, Pool.queued]
    constructor
    · simp only [List.count_append, hadded, hcount, List.count_cons, List.count_nil, beq_iff_eq,
        Seen.added.injEq, reduceCtorEq, if_false]
      split_ifs <;> omega
    · simp only [List.count_append, hqueued, List.count_cons, List.count_nil, beq_iff_eq,
        Seen.added.injEq, Seen.handed.injEq, reduceCtorEq, if_false]
      omega
    · simp only [List.count_append, hwaiting, List.count_cons, List.count_nil, beq_iff_eq,
        Seen.handed.injEq, reduceCtorEq, if_false]
      omega
    · simp only [List.count_append, hcurrent, List.count_cons, List.count_nil, beq_iff_eq,
        reduceCtorEq, if_false]
      omega
  | queues value hrunning hbusy hqueue hactive' hstopped hworkers hcount =>
    have hqueued : s'.queued = s.queued ++ [s.added] := by
      rw [Pool.queued, hqueue, List.map_append]
      rfl
    constructor
    · simp only [List.count_append, hadded, hcount, List.count_singleton, beq_iff_eq,
        Seen.added.injEq]
      split_ifs <;> omega
    · simp only [List.count_append, hqueued, List.count_singleton, beq_iff_eq, Seen.added.injEq,
        reduceCtorEq, if_false]
      omega
    · simpa [List.count_append, Pool.waiting, hworkers] using hstarted
    · simpa [List.count_append, Pool.current, hworkers] using hfinished
  | moves hmoves before after hbefore hqueue hactive' hstopped hworkers hcount =>
    have hqueued : s'.queued = s.queued := by rw [Pool.queued, hqueue, Pool.queued]
    rw [Pool.waiting, hbefore, count_filterMap_cons] at hstarted
    rw [Pool.current, hbefore, count_filterMap_cons] at hfinished
    cases hmoves with
    | forked item =>
      constructor
      · rwa [List.append_nil, hcount]
      · rwa [List.append_nil, hqueued]
      · rw [List.append_nil, Pool.waiting, hworkers, count_filterMap_cons]
        exact hstarted
      · rw [List.append_nil, Pool.current, hworkers, count_filterMap_cons]
        exact hfinished
    | started item =>
      constructor
      · simpa [List.count_append, hcount] using hadded
      · simpa [List.count_append, hqueued] using hhanded
      · rw [Pool.waiting, hworkers, count_filterMap_cons]
        simp only [List.count_append, List.count_singleton, beq_iff_eq, Seen.started.injEq,
          reduceCtorEq, if_false, Worker.waiting, Option.toList_none, Option.toList_some,
          List.count_nil] at hstarted ⊢
        omega
      · rw [Pool.current, hworkers, count_filterMap_cons]
        simp only [List.count_append, List.count_singleton, beq_iff_eq, Seen.started.injEq,
          reduceCtorEq, if_false, Worker.current, Option.toList_none, Option.toList_some,
          List.count_nil] at hfinished ⊢
        omega
    | finished item =>
      constructor
      · simpa [List.count_append, hcount] using hadded
      · simpa [List.count_append, hqueued] using hhanded
      · rw [Pool.waiting, hworkers, count_filterMap_cons]
        simpa [List.count_append, Worker.waiting] using hstarted
      · rw [Pool.current, hworkers, count_filterMap_cons]
        simp only [List.count_append, List.count_singleton, beq_iff_eq, Seen.finished.injEq,
          reduceCtorEq, if_false, Worker.current, Option.toList_none, Option.toList_some,
          List.count_nil] at hfinished ⊢
        omega
  | continues item before after hbefore hqueue hactive' hstopped hworkers hcount =>
    have hqueued : s.queued = item.number :: s'.queued := by rw [Pool.queued, hqueue]; rfl
    rw [Pool.waiting, hbefore, count_filterMap_cons] at hstarted
    rw [Pool.current, hbefore, count_filterMap_cons] at hfinished
    constructor
    · simpa [List.count_append, hcount] using hadded
    · simp only [hqueued, List.count_append, List.count_cons, List.count_nil, beq_iff_eq,
        Seen.handed.injEq, reduceCtorEq, if_false] at hhanded ⊢
      omega
    · rw [Pool.waiting, hworkers, count_filterMap_cons]
      simp only [List.count_append, List.count_singleton, beq_iff_eq, Seen.handed.injEq,
        reduceCtorEq, if_false, Worker.waiting, Option.toList_none, Option.toList_some,
        List.count_nil] at hstarted ⊢
      omega
    · rw [Pool.current, hworkers, count_filterMap_cons]
      simpa [List.count_append, Worker.current] using hfinished
  | ends before after hbefore hempty hqueue hactive' hstopped hworkers hcount =>
    have hqueued : s'.queued = s.queued := by rw [Pool.queued, hqueue, Pool.queued, hempty]
    rw [Pool.waiting, hbefore, count_filterMap_cons] at hstarted
    rw [Pool.current, hbefore, count_filterMap_cons] at hfinished
    constructor
    · rwa [List.append_nil, hcount]
    · rwa [List.append_nil, hqueued]
    · rw [List.append_nil, Pool.waiting, hworkers]
      exact hstarted
    · rw [List.append_nil, Pool.current, hworkers]
      exact hfinished
  | stops hqueue hactive' hstopped hworkers hcount =>
    obtain ⟨hdropped, hother⟩ := count_dropped s.queue n
    have hnoadd := hother (.added n) (by simp)
    have hnohand := hother (.handed n) (by simp)
    have hnostart := hother (.started n) (by simp)
    have hnofinish := hother (.finished n) (by simp)
    have hqueued : s'.queued = [] := by rw [Pool.queued, hqueue]; rfl
    rw [Pool.queued] at hhanded
    constructor
    · rw [List.count_append, hnoadd, hcount]
      exact hadded
    · rw [List.count_append, List.count_append, List.count_append, hnohand, hdropped, hnoadd, hqueued,
        List.count_nil]
      omega
    · rw [List.count_append, List.count_append, hnostart, hnohand, Pool.waiting, hworkers]
      exact hstarted
    · rw [List.count_append, List.count_append, hnofinish, hnostart, Pool.current, hworkers]
      exact hfinished

/-! ### The order of the items -/

theorem handedOrder_append (log seen : List Seen) :
    handedOrder (log ++ seen) = handedOrder log ++ handedOrder seen := List.filterMap_append

theorem startedOrder_append (log seen : List Seen) :
    startedOrder (log ++ seen) = startedOrder log ++ startedOrder seen := List.filterMap_append

theorem order_dropped (queue : List (Item α)) :
    handedOrder (queue.map fun item ↦ Seen.dropped item.number) = [] ∧
      startedOrder (queue.map fun item ↦ Seen.dropped item.number) = [] := by
  constructor
  · rw [handedOrder, List.filterMap_map]
    exact List.filterMap_eq_nil_iff.mpr fun _ _ ↦ rfl
  · rw [startedOrder, List.filterMap_map]
    exact List.filterMap_eq_nil_iff.mpr fun _ _ ↦ rfl

/-- A new number comes after all others. -/
theorem pairwise_append_new {numbers : List ℕ} {n : ℕ} (h : numbers.Pairwise (· < ·))
    (hbelow : ∀ m ∈ numbers, m < n) : (numbers ++ [n]).Pairwise (· < ·) :=
  List.pairwise_append.mpr ⟨h, List.pairwise_singleton _ _, fun m hm _ hk ↦
    List.mem_singleton.mp hk ▸ hbelow m hm⟩

theorem below_append_new {numbers : List ℕ} {n : ℕ} (hbelow : ∀ m ∈ numbers, m < n) :
    ∀ m ∈ numbers ++ [n], m < n + 1 := by
  intro m hm
  rcases List.mem_append.mp hm with hm | hm
  · exact (hbelow m hm).trans (Nat.lt_succ_self n)
  · exact List.mem_singleton.mp hm ▸ Nat.lt_succ_self n

/-- A thread of a crew of one is the whole crew. -/
theorem alone_of_length {before after : List (Worker α)} {w : Worker α}
    (h : s.workers = before ++ w :: after) (hcrew : s.workers.length ≤ 1) : before = [] ∧ after = [] := by
  rw [h, List.length_append, List.length_cons] at hcrew
  exact ⟨List.length_eq_zero_iff.mp (by omega), List.length_eq_zero_iff.mp (by omega)⟩

theorem Ordered.change {log seen : List Seen} (h : Ordered limit log s) (hstaffed : Staffed limit s)
    (hchange : Change limit s s' seen) : Ordered limit (log ++ seen) s' := by
  have hactive := hstaffed.active
  have hcrew := hstaffed.crew
  obtain ⟨hincreasing, hbelow, halone⟩ := h
  cases hchange with
  | waits hqueue hactive' hstopped hworkers hadded =>
    have hqueued : s'.queued = s.queued := by rw [Pool.queued, hqueue, Pool.queued]
    rw [List.append_nil]
    exact ⟨by rwa [hqueued], by rwa [hqueued, hadded], by rwa [Pool.waiting, hworkers]⟩
  | begins value hrunning hfree hqueue hactive' hstopped hworkers hadded =>
    have hempty : s.queued = [] := by
      by_contra hne
      have := hstaffed.busy fun hnil ↦ hne (by rw [Pool.queued, hnil]; rfl)
      omega
    have hqueued : s'.queued = [] := by rw [Pool.queued, hqueue]; exact hempty
    have hhanded : handedOrder [.added s.added, .handed s.added] = [s.added] := rfl
    rw [hempty, List.append_nil] at hincreasing hbelow
    constructor
    · rw [handedOrder_append, hhanded, hqueued, List.append_nil]
      exact pairwise_append_new hincreasing hbelow
    · rw [handedOrder_append, hhanded, hqueued, List.append_nil, hadded]
      exact below_append_new hbelow
    · intro hone
      have hworkers' : s.workers = [] := List.length_eq_zero_iff.mp (by omega)
      have hwaiting : s'.waiting = [s.added] := by rw [Pool.waiting, hworkers, hworkers']; rfl
      have hearlier := halone hone
      rw [Pool.waiting, hworkers', List.filterMap_nil, List.append_nil] at hearlier
      rw [startedOrder_append, handedOrder_append, hhanded, hwaiting, ← hearlier]
      exact congrArg (· ++ [s.added]) (List.append_nil _)
  | queues value hrunning hbusy hqueue hactive' hstopped hworkers hadded =>
    have hqueued : s'.queued = s.queued ++ [s.added] := by
      rw [Pool.queued, hqueue, List.map_append]
      rfl
    have hhanded : handedOrder (log ++ [.added s.added]) = handedOrder log := by
      rw [handedOrder_append]
      exact List.append_nil _
    constructor
    · rw [hhanded, hqueued, ← List.append_assoc]
      exact pairwise_append_new hincreasing hbelow
    · rw [hhanded, hqueued, ← List.append_assoc, hadded]
      exact below_append_new hbelow
    · intro hone
      rw [hhanded, startedOrder_append, Pool.waiting, hworkers, ← halone hone]
      exact congrArg (· ++ s.waiting) (List.append_nil _)
  | moves hmoves before after hbefore hqueue hactive' hstopped hworkers hadded =>
    have hqueued : s'.queued = s.queued := by rw [Pool.queued, hqueue, Pool.queued]
    have hhanded : handedOrder (log ++ seen) = handedOrder log := by
      rw [handedOrder_append]
      cases hmoves <;> exact List.append_nil _
    refine ⟨by rwa [hhanded, hqueued], by rwa [hhanded, hqueued, hadded], fun hone ↦ ?_⟩
    obtain ⟨rfl, rfl⟩ := alone_of_length hbefore (hcrew.trans hone)
    have hearlier := halone hone
    rw [Pool.waiting, hbefore] at hearlier
    rw [hhanded, startedOrder_append, Pool.waiting, hworkers, ← hearlier, List.append_assoc]
    cases hmoves <;> rfl
  | continues item before after hbefore hqueue hactive' hstopped hworkers hadded =>
    have hqueued : s.queued = item.number :: s'.queued := by rw [Pool.queued, hqueue]; rfl
    have hhanded : handedOrder (log ++ [.handed item.number]) = handedOrder log ++ [item.number] :=
      handedOrder_append _ _
    have hsame : handedOrder (log ++ [.handed item.number]) ++ s'.queued =
        handedOrder log ++ s.queued := by
      rw [hhanded, hqueued, List.append_assoc]
      rfl
    refine ⟨by rwa [hsame], by rwa [hsame, hadded], fun hone ↦ ?_⟩
    obtain ⟨rfl, rfl⟩ := alone_of_length hbefore (hcrew.trans hone)
    have hearlier := halone hone
    rw [Pool.waiting, hbefore] at hearlier
    rw [hhanded, startedOrder_append, Pool.waiting, hworkers, ← hearlier]
    exact congrArg (· ++ [item.number]) rfl
  | ends before after hbefore hempty hqueue hactive' hstopped hworkers hadded =>
    have hqueued : s'.queued = s.queued := by rw [Pool.queued, hqueue, Pool.queued, hempty]
    rw [List.append_nil]
    refine ⟨by rwa [hqueued], by rwa [hqueued, hadded], fun hone ↦ ?_⟩
    rw [← halone hone, Pool.waiting, hworkers, Pool.waiting, hbefore, List.filterMap_append,
      List.filterMap_append]
    rfl
  | stops hqueue hactive' hstopped hworkers hadded =>
    have hqueued : s'.queued = [] := by rw [Pool.queued, hqueue]; rfl
    obtain ⟨hhanded, hstarted⟩ := order_dropped s.queue
    constructor
    · rw [handedOrder_append, hhanded, hqueued, List.append_nil, List.append_nil]
      exact (List.pairwise_append.mp hincreasing).1
    · rw [handedOrder_append, hhanded, hqueued, List.append_nil, List.append_nil, hadded]
      exact fun n hn ↦ hbelow n (List.mem_append_left _ hn)
    · rw [startedOrder_append, handedOrder_append, hhanded, hstarted, List.append_nil, List.append_nil,
        Pool.waiting, hworkers]
      exact halone

/-! ### Threads go on -/

/-- A step of a thread. -/
def Event.ofWorker : Event α → Bool
  | .fork _ | .start _ | .finish _ _ | .next _ => true
  | _ => false

/-- How many steps a thread takes until it asks for the next item, and that step. -/
def Worker.rank : Worker α → ℕ
  | .forking _ => 4
  | .ready _ => 3
  | .working _ => 2
  | .between => 1

/-- At least as many steps as the threads can take when nothing is added. -/
def Pool.rank (s : Pool α) : ℕ := 4 * s.queue.length + (s.workers.map Worker.rank).sum

theorem sum_rank_cons (before after : List (Worker α)) (w : Worker α) :
    ((before ++ w :: after).map Worker.rank).sum = ((before ++ after).map Worker.rank).sum + w.rank := by
  simp only [List.map_append, List.map_cons, List.sum_append, List.sum_cons]
  omega

/-- Every step of a thread lowers the rank. -/
theorem rank_lt_of_step (hworker : event.ofWorker = true)
    (h : (forkingPool α limit).step s event = some s') : s'.rank < s.rank := by
  obtain ⟨hforks, hstep⟩ := Machine.guard_step.mp h
  change Pool.step limit s event = some s' at hstep
  have hset : ∀ {i w w'}, s.workers[i]? = some w → w'.rank < w.rank →
      Pool.rank { s with workers := s.workers.set i w' } < s.rank := by
    intro i w w' hw hlt
    obtain ⟨before, after, hbefore, hset, -⟩ := exists_split hw
    show 4 * s.queue.length + _ < 4 * s.queue.length + _
    rw [hset, hbefore, sum_rank_cons, sum_rank_cons]
    omega
  cases event with
  | fork i =>
    simp only [Pool.step] at hstep
    split at hstep
    · next item hw => exact Option.some.inj hstep ▸ hset hw (Nat.lt_succ_self _)
    · cases hstep
  | start i =>
    simp only [Pool.step] at hstep
    split at hstep
    · next item hw => exact Option.some.inj hstep ▸ hset hw (Nat.lt_succ_self _)
    · cases hstep
  | finish i raised =>
    simp only [Pool.step] at hstep
    split at hstep
    · next item hw => exact Option.some.inj hstep ▸ hset hw (Nat.lt_succ_self _)
    · cases hstep
  | next i =>
    simp only [Pool.step] at hstep
    split at hstep
    · next hw =>
      obtain ⟨before, after, hbefore, hset, herase⟩ := exists_split hw
      obtain rfl := Option.some.inj hstep
      rw [Pool.rank, Pool.rank, Pool.next, hbefore, sum_rank_cons]
      rcases s.pop_cases with ⟨-, hpop⟩ | ⟨item, rest, front, back, hqueue, hrest, hpop⟩
      · rw [hpop]
        show 4 * s.queue.length + ((s.workers.eraseIdx i).map Worker.rank).sum < _
        rw [herase]
        exact Nat.add_lt_add_left (Nat.lt_succ_self _) _
      · rw [hpop]
        show 4 * (front ++ back.reverse).length + ((s.workers.set i (.ready item)).map Worker.rank).sum < _
        rw [hset, sum_rank_cons, hrest, hqueue, List.length_cons]
        show _ + (_ + 3) < _ + (_ + 1)
        omega
    · cases hstep
  | add | drain | drained | stop | stopReturns => cases hworker
  | forkRaises i => cases hworker

/-- Every thread can go on. -/
theorem exists_step_of_worker {i : ℕ} (hi : i < s.workers.length) :
    ∃ event : Event α, event.ofWorker = true ∧ ((forkingPool α limit).step s event).isSome := by
  have hw : s.workers[i]? = some s.workers[i] := List.getElem?_eq_getElem hi
  have hguard : ∀ event : Event α, event.forks = true → (Pool.step limit s event).isSome →
      ((forkingPool α limit).step s event).isSome := by
    intro event hforks hsome
    obtain ⟨s', hs'⟩ := Option.isSome_iff_exists.mp hsome
    have hguarded : (forkingPool α limit).step s event = some s' := Machine.guard_step.mpr ⟨hforks, hs'⟩
    rw [hguarded]
    rfl
  cases hphase : s.workers[i] with
  | forking item => exact ⟨.fork i, rfl, hguard _ rfl (by simp [Pool.step, hw, hphase])⟩
  | ready item => exact ⟨.start i, rfl, hguard _ rfl (by simp [Pool.step, hw, hphase])⟩
  | working item => exact ⟨.finish i false, rfl, hguard _ rfl (by simp [Pool.step, hw, hphase])⟩
  | between => exact ⟨.next i, rfl, hguard _ rfl (by simp [Pool.step, hw, hphase])⟩

/-- Threads take no more steps than the rank. -/
theorem length_le_rank {events : List (Event α)} (hworker : ∀ event ∈ events, event.ofWorker = true) :
    ∀ {s s' : Pool α}, (forkingPool α limit).run s events = some s' → events.length ≤ s.rank := by
  induction events with
  | nil => exact fun _ ↦ Nat.zero_le _
  | cons event rest ih =>
    intro s s' hrun
    obtain ⟨hevent, hrest⟩ := List.forall_mem_cons.mp hworker
    obtain ⟨t, hnext, hrun⟩ := Option.bind_eq_some_iff.mp hrun
    have hlt := rank_lt_of_step hevent hnext
    have hle := ih hrest hrun
    rw [List.length_cons]
    omega

/-! ### Runs -/

section Runs

variable {log : List Seen}

theorem staffed_of_reachable (h : (forkingPool α limit).Reachable s) : Staffed limit s := by
  refine h.invariant ⟨rfl, Nat.zero_le _, fun hne ↦ absurd rfl hne, fun _ ↦ rfl⟩ ?_
  exact fun _ _ _ _ hstaffed hstep ↦ hstaffed.change (change_of_step hstep)

theorem accounted_of_run (h : (forkingPool α limit).Run (observe limit) log s) (n : ℕ) :
    Accounted log s n := by
  induction h with
  | initial => exact ⟨rfl, rfl, rfl, rfl⟩
  | step event _ hstep ih => exact ih.change (change_of_step hstep)

theorem ordered_of_run (h : (forkingPool α limit).Run (observe limit) log s) : Ordered limit log s := by
  induction h with
  | initial => exact ⟨List.Pairwise.nil, fun n hn ↦ absurd hn List.not_mem_nil, fun _ ↦ rfl⟩
  | step event hrun hstep ih => exact ih.change (staffed_of_reachable hrun.reachable) (change_of_step hstep)

/-- An item was worked on once, or dropped and never begun. -/
def Done (log : List Seen) (n : ℕ) : Prop :=
  log.count (.started n) = 1 ∧ log.count (.finished n) = 1 ∧ log.count (.dropped n) = 0 ∨
    log.count (.started n) = 0 ∧ log.count (.finished n) = 0 ∧ log.count (.dropped n) = 1

/-- When no thread is active, every item added is done. -/
theorem done_of_idle (hlimit : 1 ≤ limit) (h : (forkingPool α limit).Run (observe limit) log s)
    (hidle : s.workers = []) : s.queue = [] ∧ ∀ n < s.added, Done log n := by
  have hqueue : s.queue = [] := by
    by_contra hne
    have hbusy := (staffed_of_reachable h.reachable).busy hne
    rw [hidle, List.length_nil] at hbusy
    omega
  refine ⟨hqueue, fun n hn ↦ ?_⟩
  obtain ⟨hadded, hhanded, hstarted, hfinished⟩ := accounted_of_run h n
  rw [if_pos hn] at hadded
  rw [Pool.queued, hqueue, List.map_nil, List.count_nil] at hhanded
  rw [Pool.waiting, hidle, List.filterMap_nil, List.count_nil] at hstarted
  rw [Pool.current, hidle, List.filterMap_nil, List.count_nil] at hfinished
  unfold Done
  omega

/-- After `stop`, when no thread is active, nothing is begun. -/
theorem Change.idle {seen : List Seen} (h : Change limit s s' seen) (hstopped : s.stopped = true)
    (hidle : s.workers = []) : s'.stopped = true ∧ s'.workers = [] ∧ ∀ n, .started n ∉ seen := by
  have hnone : ∀ (before after : List (Worker α)) (w : Worker α), s.workers ≠ before ++ w :: after := by
    intro before after w hworkers
    rw [hidle] at hworkers
    simp at hworkers
  cases h with
  | waits hqueue hactive hstopped' hworkers hadded =>
    exact ⟨hstopped'.trans hstopped, hworkers.trans hidle, fun n ↦ List.not_mem_nil⟩
  | begins value hrunning => exact absurd (hrunning.symm.trans hstopped) Bool.false_ne_true
  | queues value hrunning => exact absurd (hrunning.symm.trans hstopped) Bool.false_ne_true
  | moves hmoves before after hbefore => exact absurd hbefore (hnone _ _ _)
  | continues item before after hbefore => exact absurd hbefore (hnone _ _ _)
  | ends before after hbefore => exact absurd hbefore (hnone _ _ _)
  | stops hqueue hactive hstopped' hworkers hadded =>
    refine ⟨hstopped', hworkers.trans hidle, fun n hn ↦ ?_⟩
    obtain ⟨item, -, hitem⟩ := List.mem_map.mp hn
    cases hitem

theorem idle_of_run {events : List (Event α)} : ∀ {s s' : Pool α}, s.stopped = true → s.workers = [] →
    (forkingPool α limit).run s events = some s' → s'.workers = [] ∧
      ∀ n, .started n ∉ (forkingPool α limit).log (observe limit) s events := by
  induction events with
  | nil =>
    intro s s' _ hidle hrun
    exact ⟨Option.some.inj hrun ▸ hidle, fun n ↦ List.not_mem_nil⟩
  | cons event rest ih =>
    intro s s' hstopped hidle hrun
    obtain ⟨t, hnext, hrest⟩ := Option.bind_eq_some_iff.mp hrun
    obtain ⟨hstopped', hidle', hseen⟩ := (change_of_step hnext).idle hstopped hidle
    obtain ⟨hlast, hlog⟩ := ih hstopped' hidle' hrest
    refine ⟨hlast, fun n hn ↦ ?_⟩
    rw [Machine.log, hnext, Option.elim_some] at hn
    rcases List.mem_append.mp hn with hn | hn
    · exact hseen n hn
    · exact hlog n hn

/-- No thread is active when a call of `drain` or `stop` returns. -/
theorem idle_of_returns (h : (forkingPool α limit).Reachable s)
    (hreturns : event = .drained ∨ event = .stopReturns)
    (hstep : (forkingPool α limit).step s event = some s') :
    s.workers = [] ∧ s'.workers = [] ∧ s'.stopped = s.stopped := by
  obtain ⟨-, hstep⟩ := Machine.guard_step.mp hstep
  change Pool.step limit s event = some s' at hstep
  have hactive := (staffed_of_reachable h).active
  have hidle : ¬ 0 < s.active → s.workers = [] := fun hnone ↦
    List.length_eq_zero_iff.mp (by omega)
  rcases hreturns with rfl | rfl
  · simp only [Pool.step] at hstep
    split_ifs at hstep with hwaits
    obtain rfl := Option.some.inj hstep
    exact ⟨hidle hwaits.2, hidle hwaits.2, rfl⟩
  · simp only [Pool.step] at hstep
    split_ifs at hstep with hwaits
    obtain rfl := Option.some.inj hstep
    exact ⟨hidle hwaits.2, hidle hwaits.2, rfl⟩

/-- While a call of `stop` waits, the pool is stopped. -/
theorem stopped_of_stopping (h : (forkingPool α limit).Reachable s) (hstopping : 0 < s.stopping) :
    s.stopped = true := by
  revert hstopping
  refine h.invariant (P := fun s ↦ 0 < s.stopping → s.stopped = true) (fun hlt ↦ absurd hlt (lt_irrefl _)) ?_
  intro s event s' _ ih hstep hstopping
  obtain ⟨-, hstep⟩ := Machine.guard_step.mp hstep
  change Pool.step limit s event = some s' at hstep
  cases event with
  | add value =>
    obtain rfl := Option.some.inj hstep
    unfold Pool.add at hstopping ⊢
    split_ifs at hstopping ⊢
    all_goals exact ih hstopping
  | next i =>
    simp only [Pool.step] at hstep
    split at hstep
    · obtain rfl := Option.some.inj hstep
      rw [Pool.next] at hstopping ⊢
      rcases s.pop_cases with ⟨-, hpop⟩ | ⟨item, rest, front, back, -, -, hpop⟩
      · rw [hpop] at hstopping ⊢
        exact ih hstopping
      · rw [hpop] at hstopping ⊢
        exact ih hstopping
    · cases hstep
  | fork i | forkRaises i | start i | finish i raised =>
    simp only [Pool.step] at hstep
    split at hstep
    · obtain rfl := Option.some.inj hstep
      exact ih hstopping
    · cases hstep
  | drain =>
    obtain rfl := Option.some.inj hstep
    exact ih hstopping
  | drained =>
    simp only [Pool.step] at hstep
    split_ifs at hstep
    obtain rfl := Option.some.inj hstep
    exact ih hstopping
  | stop =>
    obtain rfl := Option.some.inj hstep
    rfl
  | stopReturns =>
    simp only [Pool.step] at hstep
    split_ifs at hstep with hwaits
    obtain rfl := Option.some.inj hstep
    exact ih hwaits.1

/-- Assumes: `limit` is at least one, and no fork raises. In every state of every run: at most `limit` items
are worked on; items are handed to threads in the order in which they were added, and one thread begins
them in this order; no item is begun twice, or begun and dropped. An item is queued only while `limit`
threads are active, each of which can go on; without new items they end after finitely many steps, and then
every item was worked on once, unless it was dropped and never begun. So it is when `drain` returns, and
after `stop` returns none is worked on or begun. -/
theorem pool_correct (hlimit : 1 ≤ limit) (hrun : (forkingPool α limit).Run (observe limit) log s) :
    s.current.length ≤ limit ∧
      (handedOrder log).Pairwise (· < ·) ∧
      (limit = 1 → (startedOrder log).Pairwise (· < ·)) ∧
      (∀ n, log.count (.started n) + log.count (.dropped n) ≤ 1) ∧
      (s.queue ≠ [] → s.workers.length = limit) ∧
      (∀ i < s.workers.length, ∃ event : Event α, event.ofWorker = true ∧
        ((forkingPool α limit).step s event).isSome) ∧
      (∀ events s', (∀ event ∈ events, event.ofWorker = true) →
        (forkingPool α limit).run s events = some s' → events.length ≤ s.rank ∧
          ((∀ event : Event α, event.ofWorker = true → (forkingPool α limit).step s' event = none) →
            s'.queue = [] ∧ ∀ n < s'.added,
              Done (log ++ (forkingPool α limit).log (observe limit) s events) n)) ∧
      (∀ s', (forkingPool α limit).step s .drained = some s' → ∀ n < s.added, Done log n) ∧
      ∀ s', (forkingPool α limit).step s .stopReturns = some s' → ∀ events s₂,
        (forkingPool α limit).run s' events = some s₂ → s₂.current = [] ∧
          ∀ n, .started n ∉ (forkingPool α limit).log (observe limit) s' events := by
  have hstaffed := staffed_of_reachable hrun.reachable
  have hordered := ordered_of_run hrun
  refine ⟨(List.length_filterMap_le _ _).trans hstaffed.crew,
    (List.pairwise_append.mp hordered.increasing).1, fun hone ↦ ?_, fun n ↦ ?_, hstaffed.busy,
    fun i hi ↦ exists_step_of_worker hi, fun events s' hworker hevents ↦
      ⟨length_le_rank hworker hevents, fun hstuck ↦ ?_⟩, fun s' hstep ↦ ?_,
    fun s' hstep events s₂ hevents ↦ ?_⟩
  · have hsame := hordered.alone hone.le
    have hhanded := (List.pairwise_append.mp hordered.increasing).1
    rw [← hsame] at hhanded
    exact (List.pairwise_append.mp hhanded).1
  · obtain ⟨hadded, hhanded, hstarted, -⟩ := accounted_of_run hrun n
    split_ifs at hadded
    all_goals omega
  · have hidle : s'.workers = [] := by
      by_contra hne
      obtain ⟨event, hworker, hsome⟩ :=
        exists_step_of_worker (s := s') (List.length_pos_iff.mpr hne)
      rw [hstuck event hworker] at hsome
      cases hsome
    exact done_of_idle hlimit (Machine.Run.log hrun hevents) hidle
  · exact (done_of_idle hlimit hrun (idle_of_returns hrun.reachable (.inl rfl) hstep).1).2
  · obtain ⟨-, hidle, hsame⟩ := idle_of_returns hrun.reachable (.inr rfl) hstep
    have hstopping : 0 < s.stopping := by
      obtain ⟨-, hstep⟩ := Machine.guard_step.mp hstep
      by_contra hnone
      change Pool.step limit s .stopReturns = some s' at hstep
      rw [Pool.step, if_neg fun h ↦ hnone h.1] at hstep
      cases hstep
    have hstopped := hsame.trans (stopped_of_stopping hrun.reachable hstopping)
    obtain ⟨hlast, hlog⟩ := idle_of_run hstopped hidle hevents
    exact ⟨by rw [Pool.current, hlast]; rfl, hlog⟩

end Runs

/-- Three items are added to a pool of two threads, and the first thread is forked last. -/
def overtaking : List (Event ℕ) :=
  [.add 10, .add 11, .add 12, .fork 1, .start 1, .finish 1 true, .next 1, .start 1, .fork 0, .start 0]

theorem overtaking_isSome : ((forkingPool ℕ 2).run (forkingPool ℕ 2).initial overtaking).isSome := by
  decide

/-- Items that different threads have may be begun in another order than they were added in. -/
theorem started_out_of_order : ∃ log s, (forkingPool ℕ 2).Run (observe 2) log s ∧
    startedOrder log = [1, 2, 0] ∧ ¬ (startedOrder log).Pairwise (· < ·) :=
  ⟨_, _, Machine.Run.log .initial (Option.some_get overtaking_isSome).symm, by decide, by decide⟩

theorem pool_correct_overtaking :
    (handedOrder ((forkingPool ℕ 2).log (observe 2) (forkingPool ℕ 2).initial overtaking)).Pairwise
      (· < ·) :=
  (pool_correct (by decide) (Machine.Run.log .initial (Option.some_get overtaking_isSome).symm)).2.1

end Holbuild.ParallelBuild.Background
