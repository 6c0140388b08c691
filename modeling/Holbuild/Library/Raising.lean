import Mathlib.Order.Basic

/-!
# Computations with a state that may raise

A computation returns a value or raises, and what it did to the state stays either way. `Ends` says how a
computation ends from a state, and has one rule for each way computations are put together. `Keeps` says
that a computation keeps what holds of the state however it ends, and `Returns` what holds of its value.
-/

set_option autoImplicit false
set_option relaxedAutoImplicit false

namespace Holbuild.Library

/-- A computation: from a state, what it returns or raises, and the state it leaves. -/
def Raising (σ ε α : Type) := σ → Except ε α × σ

namespace Raising

variable {σ ε α β : Type}

def pure (a : α) : Raising σ ε α := fun s ↦ (.ok a, s)

def bind (x : Raising σ ε α) (f : α → Raising σ ε β) : Raising σ ε β := fun s ↦
  match x s with
  | (.ok a, s') => f a s'
  | (.error e, s') => (.error e, s')

instance : Monad (Raising σ ε) where
  pure := pure
  bind := bind

def raise (e : ε) : Raising σ ε α := fun s ↦ (.error e, s)

def modify (f : σ → σ) : Raising σ ε Unit := fun s ↦ (.ok (), f s)

/-- Runs a handler when a computation raises. -/
def handle (x : Raising σ ε α) (handler : ε → Raising σ ε α) : Raising σ ε α := fun s ↦
  match x s with
  | (.ok a, s') => (.ok a, s')
  | (.error e, s') => handler e s'

/-- The state. -/
def get : Raising σ ε σ := fun s ↦ (.ok s, s)

/-- How a computation ends, as a value. -/
def attempt (x : Raising σ ε α) : Raising σ ε (Except ε α) := fun s ↦ (.ok (x s).1, (x s).2)

/-- From a state, the computation ends as stated. -/
def Ends (x : Raising σ ε α) (s : σ) (Q : Except ε α → σ → Prop) : Prop := Q (x s).1 (x s).2

variable {x : Raising σ ε α} {f : α → Raising σ ε β} {handler : ε → Raising σ ε α} {s : σ}
  {Q R : Except ε α → σ → Prop} {Q' : Except ε β → σ → Prop}

theorem Ends.mono (h : Ends x s Q) (hQ : ∀ r s', Q r s' → R r s') : Ends x s R := hQ _ _ h

theorem ends_pure {a : α} (h : Q (.ok a) s) : Ends (Pure.pure a) s Q := h

theorem ends_raise {e : ε} (h : Q (.error e) s) : Ends (raise e) s Q := h

theorem ends_modify {g : σ → σ} {Q : Except ε Unit → σ → Prop} (h : Q (.ok ()) (g s)) :
    Ends (modify g) s Q := h

theorem ends_bind (h : Ends x s fun r s' ↦
    match r with
    | .ok a => Ends (f a) s' Q'
    | .error e => Q' (.error e) s') : Ends (x >>= f) s Q' := by
  show Q' (bind x f s).1 (bind x f s).2
  unfold Ends at h
  unfold bind
  cases hx : x s with
  | mk r s' =>
    rw [hx] at h
    cases r with
    | ok a => exact h
    | error e => exact h

theorem ends_handle (h : Ends x s fun r s' ↦
    match r with
    | .ok a => Q (.ok a) s'
    | .error e => Ends (handler e) s' Q) : Ends (handle x handler) s Q := by
  show Q (handle x handler s).1 (handle x handler s).2
  unfold Ends at h
  unfold handle
  cases hx : x s with
  | mk r s' =>
    rw [hx] at h
    cases r with
    | ok a => exact h
    | error e => exact h

/-- Whether it returns or raises, the computation keeps what holds of the state. -/
def Keeps (I : σ → Prop) (x : Raising σ ε α) : Prop := ∀ s, I s → I (x s).2

variable {I : σ → Prop}

theorem keeps_pure {a : α} : Keeps I (Pure.pure a : Raising σ ε α) := fun _ h ↦ h

theorem keeps_raise {e : ε} : Keeps I (raise e : Raising σ ε α) := fun _ h ↦ h

theorem keeps_get : Keeps I (get : Raising σ ε σ) := fun _ h ↦ h

theorem keeps_modify {g : σ → σ} (h : ∀ s, I s → I (g s)) : Keeps I (modify g : Raising σ ε Unit) := h

theorem keeps_attempt (h : Keeps I x) : Keeps I (attempt x) := h

theorem keeps_bind (hx : Keeps I x) (hf : ∀ a, Keeps I (f a)) : Keeps I (x >>= f) := by
  intro s hs
  have hleft := hx s hs
  show I (bind x f s).2
  unfold bind
  cases hend : x s with
  | mk r s' =>
    rw [hend] at hleft
    cases r with
    | ok a => exact hf a s' hleft
    | error e => exact hleft

theorem keeps_ite {c : Prop} [Decidable c] {y z : Raising σ ε α} (hy : Keeps I y) (hz : Keeps I z) :
    Keeps I (if c then y else z) := by
  by_cases hc : c
  · rw [if_pos hc]
    exact hy
  · rw [if_neg hc]
    exact hz

/-- What the computation returns, when it does. -/
def Returns (V : α → Prop) (x : Raising σ ε α) : Prop := ∀ s a, (x s).1 = .ok a → V a

variable {V : α → Prop} {W : β → Prop}

theorem returns_pure {a : α} (h : V a) : Returns V (Pure.pure a : Raising σ ε α) :=
  fun _ _ heq ↦ Except.ok.inj heq ▸ h

theorem returns_raise {e : ε} : Returns V (raise e : Raising σ ε α) := by
  intro s a heq
  cases heq

/-- What is returned in the end is what the last computation returns. -/
theorem returns_bind (h : ∀ a, Returns W (f a)) : Returns W (x >>= f) := by
  intro s b heq
  change (bind x f s).1 = .ok b at heq
  unfold bind at heq
  cases hend : x s with
  | mk r s' =>
    rw [hend] at heq
    cases r with
    | ok a => exact h a s' b heq
    | error e => cases heq

theorem returns_ite {c : Prop} [Decidable c] {y z : Raising σ ε α} (hy : Returns V y)
    (hz : Returns V z) : Returns V (if c then y else z) := by
  by_cases hc : c
  · rw [if_pos hc]
    exact hy
  · rw [if_neg hc]
    exact hz

/-- What a computation returns may be used for the next one. -/
theorem keeps_bind_of_returns (hx : Keeps I x) (hvalue : Returns V x)
    (hf : ∀ a, V a → Keeps I (f a)) : Keeps I (x >>= f) := by
  intro s hs
  have hleft := hx s hs
  have hreturned := hvalue s
  show I (bind x f s).2
  unfold bind
  cases hend : x s with
  | mk r s' =>
    rw [hend] at hleft hreturned
    cases r with
    | ok a => exact hf a (hreturned a rfl) s' hleft
    | error e => exact hleft

end Raising

end Holbuild.Library
