import Mathlib.Algebra.Group.Nat.Defs
import Mathlib.Data.List.Basic

/-!
# Texts, their decimal numbers and their pieces

Texts are lists of characters. `decimal` writes a natural number in base ten and `readDecimal` reads
it back (`readDecimal_decimal`), so distinct numbers have distinct texts (`decimal_injective`).
`tokens` are the nonempty pieces of a text between separators; a text without separators, followed
by one, is its only token (`tokens_append_singleton`).
-/

set_option autoImplicit false
set_option relaxedAutoImplicit false

namespace Holbuild.Library

/-- A text is a list of characters. -/
abbrev Text := List Char

instance Text.lawfulBEq : LawfulBEq Text := inferInstance

/-- What holds of a text's characters is decided along the text. -/
instance Text.decidableForallMem (text : Text) (p : Char → Prop) [DecidablePred p] :
    Decidable (∀ c ∈ text, p c) := List.decidableBAll p text

/-! ### Decimal numbers -/

/-- The number in base ten, without leading zeros. -/
def decimal (n : ℕ) : Text := Nat.toDigits 10 n

/-- The number a nonempty text of decimal digits stands for, `none` for other texts. -/
def readDecimal (text : Text) : Option ℕ :=
  if text ≠ [] ∧ text.all Char.isDigit then some (Nat.ofDigitChars 10 text 0) else none

theorem decimal_ne_nil (n : ℕ) : decimal n ≠ [] := Nat.toDigits_ne_nil

theorem isDigit_of_mem_decimal {n : ℕ} {c : Char} (hc : c ∈ decimal n) : c.isDigit :=
  Nat.isDigit_of_mem_toDigits (by decide) (by decide) hc

/-- A number with at most `k` digits is below `10 ^ k`. -/
theorem length_decimal_le_iff {n k : ℕ} (hk : 0 < k) : (decimal n).length ≤ k ↔ n < 10 ^ k :=
  Nat.length_toDigits_le_iff (by decide) hk

/-- Reading a written number gives the number back. -/
theorem readDecimal_decimal (n : ℕ) : readDecimal (decimal n) = some n := by
  have hdigits : decimal n ≠ [] ∧ (decimal n).all Char.isDigit :=
    ⟨decimal_ne_nil n, List.all_eq_true.mpr fun _ hc ↦ isDigit_of_mem_decimal hc⟩
  rw [readDecimal, if_pos hdigits]
  exact congrArg some Nat.ofDigitChars_ten_toDigits

theorem decimal_injective : Function.Injective decimal := by
  intro m n hmn
  have hread := congrArg readDecimal hmn
  rwa [readDecimal_decimal, readDecimal_decimal, Option.some.injEq] at hread

/-! ### Tokens -/

/-- A space as Standard ML has them. -/
def isSmlSpace (c : Char) : Bool :=
  c = ' ' || c = '\t' || c = '\n' || c = '\x0b' || c = '\x0c' || c = '\r'

/-- The nonempty pieces of a text between the characters that satisfy `p`. -/
def tokens (p : Char → Bool) (text : Text) : List Text :=
  (text.splitOnP p).filter fun piece ↦ piece ≠ []

variable {p : Char → Bool} {text : Text}

/-- A nonempty text without separators is its only token. -/
theorem tokens_eq_singleton (htext : text ≠ []) (hp : ∀ c ∈ text, p c = false) :
    tokens p text = [text] := by
  rw [tokens, List.splitOnP_eq_singleton hp]
  simp [htext]

/-- A nonempty text without separators stays its only token when a separator follows. -/
theorem tokens_append_singleton {sep : Char} (htext : text ≠ []) (hp : ∀ c ∈ text, p c = false)
    (hsep : p sep = true) : tokens p (text ++ [sep]) = [text] := by
  rw [tokens, List.splitOnP_append_cons_of_forall_mem hp sep hsep]
  simp [htext]

/-- A text that starts with no separator has a first token, which starts as the text does. -/
theorem exists_tokens_cons {c : Char} (rest : Text) (hc : p c = false) :
    ∃ token others, tokens p (c :: rest) = (c :: token) :: others := by
  obtain ⟨piece, pieces, hpieces⟩ := List.exists_cons_of_ne_nil (List.splitOnP_ne_nil p rest)
  refine ⟨piece, pieces.filter fun piece ↦ piece ≠ [], ?_⟩
  rw [tokens, List.splitOnP_cons_eq_if_modifyHead, hc, hpieces]
  simp

end Holbuild.Library
