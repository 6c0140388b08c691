import Mathlib.Order.Basic

/-!
# Programs that can be stopped between any two operations

A program performs operations on a state. Each operation may succeed, fail in part and raise, or be the
last one of a killed process, which leaves the operation done in part. `Holds` says what is true however
a program is stopped, as long as its operations meet a condition; `Keeps` says that a property is never
lost. Both have one rule for each way programs are put together.
-/

set_option autoImplicit false
set_option relaxedAutoImplicit false

namespace Holbuild.Library

/-- What becomes of an operation: it succeeds, it fails, or the process is killed. A number says how
much of the operation was done before. -/
inductive Fate
  | done
  | fails (n : ℕ)
  | killed (n : ℕ)
deriving DecidableEq, Repr

/-- How a program ends: with a value, raising an error, or killed. -/
inductive Ending (ε α : Type)
  | done (a : α)
  | raised (e : ε)
  | killed

/-- The operations of a state: what each does, with the errors it raises by itself, what is left of it
when it is stopped, and the error that a failure raises. -/
structure Device (Op σ ε : Type) where
  perform : Op → σ → Except ε σ
  partly : Op → ℕ → σ → σ
  failure : ε

/-- An operation with the state it found and what became of it. -/
structure Event (Op σ : Type) where
  before : σ
  op : Op
  fate : Fate

structure Stopped (Op σ ε α : Type) where
  ending : Ending ε α
  state : σ
  events : List (Event Op σ)
  fates : List Fate

/-- A program runs from a state, with the fates of its operations in order. Operations without a fate
succeed. -/
def Prog (Op σ ε α : Type) := σ → List Fate → Stopped Op σ ε α

namespace Prog

variable {Op σ ε α β : Type}

def pure (a : α) : Prog Op σ ε α := fun s fates ↦ ⟨.done a, s, [], fates⟩

def raise (e : ε) : Prog Op σ ε α := fun s fates ↦ ⟨.raised e, s, [], fates⟩

def get : Prog Op σ ε σ := fun s fates ↦ ⟨.done s, s, [], fates⟩

def bind (p : Prog Op σ ε α) (f : α → Prog Op σ ε β) : Prog Op σ ε β := fun s fates ↦
  let first := p s fates
  match first.ending with
  | .done a =>
    let second := f a first.state first.fates
    { second with events := first.events ++ second.events }
  | .raised e => ⟨.raised e, first.state, first.events, first.fates⟩
  | .killed => ⟨.killed, first.state, first.events, first.fates⟩

instance : Monad (Prog Op σ ε) where
  pure := pure
  bind := bind

/-- Runs a handler when a program raises; a killed program runs nothing more. -/
def handle (p : Prog Op σ ε α) (handler : ε → Prog Op σ ε α) : Prog Op σ ε α := fun s fates ↦
  let first := p s fates
  match first.ending with
  | .raised e =>
    let second := handler e first.state first.fates
    { second with events := first.events ++ second.events }
  | _ => first

/-- Performs an operation. -/
def step (device : Device Op σ ε) (op : Op) : Prog Op σ ε Unit := fun s fates ↦
  match fates with
  | [] | .done :: _ =>
    match device.perform op s with
    | .ok s' => ⟨.done (), s', [⟨s, op, .done⟩], fates.tail⟩
    | .error e => ⟨.raised e, s, [⟨s, op, .done⟩], fates.tail⟩
  | .fails n :: rest => ⟨.raised device.failure, device.partly op n s, [⟨s, op, .fails n⟩], rest⟩
  | .killed n :: rest => ⟨.killed, device.partly op n s, [⟨s, op, .killed n⟩], rest⟩

/-- Performs a program for each value. -/
def each (f : α → Prog Op σ ε Unit) : List α → Prog Op σ ε Unit
  | [] => pure ()
  | a :: rest => bind (f a) fun _ ↦ each f rest

/-! ### What holds however a program is stopped -/

/-- However the program is stopped, if its operations meet the condition, it ends as stated. -/
def Holds (C : Event Op σ → Prop) (p : Prog Op σ ε α) (s : σ) (Q : Ending ε α → σ → Prop) : Prop :=
  ∀ fates, (∀ event ∈ (p s fates).events, C event) → Q (p s fates).ending (p s fates).state

variable {C : Event Op σ → Prop} {p : Prog Op σ ε α} {f : α → Prog Op σ ε β}
  {handler : ε → Prog Op σ ε α} {s : σ} {Q R : Ending ε α → σ → Prop} {Q' : Ending ε β → σ → Prop}
  {device : Device Op σ ε} {op : Op}

theorem Holds.mono (h : Holds C p s Q) (hQ : ∀ ending s', Q ending s' → R ending s') :
    Holds C p s R := fun fates hC ↦ hQ _ _ (h fates hC)

theorem Holds.and (h : Holds C p s Q) (h' : Holds C p s R) :
    Holds C p s fun ending s' ↦ Q ending s' ∧ R ending s' :=
  fun fates hC ↦ ⟨h fates hC, h' fates hC⟩

/-- What holds under no condition holds under any. -/
theorem Holds.of_true (h : Holds (fun _ ↦ True) p s Q) : Holds C p s Q :=
  fun fates _ ↦ h fates fun _ _ ↦ trivial

theorem holds_pure {a : α} (h : Q (.done a) s) : Holds C (pure a) s Q := fun _ _ ↦ h

theorem holds_raise {e : ε} (h : Q (.raised e) s) : Holds C (raise e) s Q := fun _ _ ↦ h

theorem holds_bind (h : Holds C p s fun ending s' ↦
    match ending with
    | .done a => Holds C (f a) s' Q'
    | .raised e => Q' (.raised e) s'
    | .killed => Q' .killed s') : Holds C (bind p f) s Q' := by
  intro fates hC
  have hfirst := h fates
  rw [bind] at hC ⊢
  dsimp only at hC ⊢
  cases hending : (p s fates).ending with
  | done a =>
    rw [hending] at hC hfirst
    exact hfirst (fun event hevent ↦ hC event (List.mem_append_left _ hevent)) _ fun event hevent ↦
      hC event (List.mem_append_right _ hevent)
  | raised e =>
    rw [hending] at hC hfirst
    exact hfirst hC
  | killed =>
    rw [hending] at hC hfirst
    exact hfirst hC

/-- Reading the state changes nothing. -/
theorem holds_get_bind {f : σ → Prog Op σ ε β} (h : Holds C (f s) s Q') :
    Holds C (bind get f) s Q' := holds_bind fun _ _ ↦ h

theorem holds_handle (h : Holds C p s fun ending s' ↦
    match ending with
    | .raised e => Holds C (handler e) s' Q
    | ending => Q ending s') : Holds C (handle p handler) s Q := by
  intro fates hC
  have hfirst := h fates
  rw [handle] at hC ⊢
  dsimp only at hC ⊢
  cases hending : (p s fates).ending with
  | raised e =>
    rw [hending] at hC hfirst
    dsimp only at hC hfirst ⊢
    exact hfirst (fun event hevent ↦ hC event (List.mem_append_left _ hevent)) _ fun event hevent ↦
      hC event (List.mem_append_right _ hevent)
  | done a =>
    rw [hending] at hC hfirst
    dsimp only at hC hfirst ⊢
    rw [hending]
    exact hfirst hC
  | killed =>
    rw [hending] at hC hfirst
    dsimp only at hC hfirst ⊢
    rw [hending]
    exact hfirst hC

theorem holds_step {Q : Ending ε Unit → σ → Prop}
    (hok : ∀ s', device.perform op s = .ok s' → C ⟨s, op, .done⟩ → Q (.done ()) s')
    (herror : ∀ e, device.perform op s = .error e → C ⟨s, op, .done⟩ → Q (.raised e) s)
    (hfails : ∀ n, C ⟨s, op, .fails n⟩ → Q (.raised device.failure) (device.partly op n s))
    (hkilled : ∀ n, C ⟨s, op, .killed n⟩ → Q .killed (device.partly op n s)) :
    Holds C (step device op) s Q := by
  have hperform : ∀ fates, (∀ event ∈ (match device.perform op s with
        | .ok s' => (⟨.done (), s', [⟨s, op, .done⟩], fates⟩ : Stopped Op σ ε Unit)
        | .error e => ⟨.raised e, s, [⟨s, op, .done⟩], fates⟩).events, C event) →
      Q (match device.perform op s with
        | .ok s' => (⟨.done (), s', [⟨s, op, .done⟩], fates⟩ : Stopped Op σ ε Unit)
        | .error e => ⟨.raised e, s, [⟨s, op, .done⟩], fates⟩).ending
        (match device.perform op s with
        | .ok s' => (⟨.done (), s', [⟨s, op, .done⟩], fates⟩ : Stopped Op σ ε Unit)
        | .error e => ⟨.raised e, s, [⟨s, op, .done⟩], fates⟩).state := by
    intro fates hC
    cases hresult : device.perform op s with
    | ok s' =>
      rw [hresult] at hC
      exact hok s' hresult (hC _ List.mem_cons_self)
    | error e =>
      rw [hresult] at hC
      exact herror e hresult (hC _ List.mem_cons_self)
  intro fates hC
  rcases fates with _ | ⟨_ | n | n, rest⟩
  · exact hperform _ hC
  · exact hperform _ hC
  · exact hfails n (hC _ List.mem_cons_self)
  · exact hkilled n (hC _ List.mem_cons_self)

/-! ### What a program never loses -/

/-- The program keeps a property, wherever it is stopped. -/
def Keeps (I : σ → Prop) (p : Prog Op σ ε α) : Prop :=
  ∀ s, I s → Holds (fun _ ↦ True) p s fun _ s' ↦ I s'

variable {I : σ → Prop}

theorem keeps_pure (a : α) : Keeps I (pure a : Prog Op σ ε α) := fun _ hs ↦ holds_pure hs

theorem keeps_raise (e : ε) : Keeps I (raise e : Prog Op σ ε α) := fun _ hs ↦ holds_raise hs

theorem keeps_get : Keeps I (get : Prog Op σ ε σ) := fun _ hs _ _ ↦ hs

theorem keeps_bind (hp : Keeps I p) (hf : ∀ a, Keeps I (f a)) : Keeps I (bind p f) := by
  intro s hs
  refine holds_bind ((hp s hs).mono fun ending s' hs' ↦ ?_)
  cases ending with
  | done a => exact hf a s' hs'
  | raised e => exact hs'
  | killed => exact hs'

theorem keeps_handle (hp : Keeps I p) (hhandler : ∀ e, Keeps I (handler e)) :
    Keeps I (handle p handler) := by
  intro s hs
  refine holds_handle ((hp s hs).mono fun ending s' hs' ↦ ?_)
  cases ending with
  | done a => exact hs'
  | raised e => exact hhandler e s' hs'
  | killed => exact hs'

theorem keeps_step (hok : ∀ s s', I s → device.perform op s = .ok s' → I s')
    (hpartly : ∀ s n, I s → I (device.partly op n s)) : Keeps I (step device op) :=
  fun s hs ↦ holds_step (fun s' h _ ↦ hok s s' hs h) (fun _ _ _ ↦ hs) (fun n _ ↦ hpartly s n hs)
    fun n _ ↦ hpartly s n hs

theorem keeps_each {f : α → Prog Op σ ε Unit} {values : List α} (hf : ∀ a ∈ values, Keeps I (f a)) :
    Keeps I (each f values) := by
  induction values with
  | nil => exact keeps_pure ()
  | cons a rest ih =>
    exact keeps_bind (hf a List.mem_cons_self) fun _ ↦
      ih fun b hb ↦ hf b (List.mem_cons_of_mem _ hb)

/-- A kept property holds where the program is stopped. -/
theorem Keeps.holds (h : Keeps I p) (hs : I s) : Holds C p s fun _ s' ↦ I s' := (h s hs).of_true

/-- A handler that keeps what its program has kept. -/
theorem holds_handle_of_keeps (h : Holds C p s fun _ s' ↦ I s') (hhandler : ∀ e, Keeps I (handler e)) :
    Holds C (handle p handler) s fun _ s' ↦ I s' := by
  refine holds_handle (h.mono fun ending s' hs' ↦ ?_)
  cases ending with
  | done a => exact hs'
  | raised e => exact (hhandler e).holds hs'
  | killed => exact hs'

end Prog

end Holbuild.Library
