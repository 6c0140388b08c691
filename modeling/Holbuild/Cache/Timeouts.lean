import Holbuild.Library.Texts
import Mathlib.Data.List.DropRight
import Mathlib.Order.MinMax

/-!
# Proof timeouts

A cache entry records the timeout its proofs were checked under, in seconds or `none` for no limit. A
number of seconds is a positive finite binary64 number, kept as its multiple of `2⁻¹⁰⁷⁴`, the least of
them. `parseTimeoutText` reads it from a decimal text, rounded to the nearest such number, and
`timeoutText` writes it with twelve significant digits, so that a number that needs more is not read
back. A timeout is at least as strong as another when every request the other satisfies, it satisfies:
this is a linear preorder (`timeoutSatisfies_of_atLeastAsStrong`, `atLeastAsStrong_total`).
-/

set_option autoImplicit false
set_option relaxedAutoImplicit false

namespace Holbuild.Cache

open Library

/-- The characters that separate the tokens of a line. -/
def isSpace (c : Char) : Bool := c = ' ' ∨ (9 ≤ c.toNat ∧ c.toNat ≤ 13)

/-! ### Numbers of seconds -/

/-- A binary64 number that is neither negative nor infinite, in units of `2⁻¹⁰⁷⁴`. -/
abbrev Seconds := ℕ

/-- One second. -/
def second : Seconds := 2 ^ 1074

/-- The integer nearest to `n / d`, the even one of two. -/
def roundedQuotient (n d : ℕ) : ℕ :=
  if 2 * (n % d) < d ∨ (2 * (n % d) = d ∧ n / d % 2 = 0) then n / d else n / d + 1

/-- The multiple of a power of two with at most 53 digits nearest to `n / d`. -/
def roundedToBinary (n d : ℕ) : Seconds :=
  let unit := 2 ^ (Nat.log2 (n / d) + 1 - 53)
  roundedQuotient n (d * unit) * unit

/-- The number nearest to `n` times a power of ten, in seconds. -/
def seconds (n : ℕ) : ℤ → Seconds
  | .ofNat k => roundedToBinary (n * 10 ^ k * second) 1
  | .negSucc k => roundedToBinary (n * second) (10 ^ (k + 1))

/-! ### Reading a number -/

def scanSign : Text → Bool × Text
  | '~' :: rest => (true, rest)
  | '-' :: rest => (true, rest)
  | '+' :: rest => (false, rest)
  | text => (false, text)

def scanDigits (text : Text) : Text × Text := text.span Char.isDigit

/-- The digits after a point; a point without digits stays in the text. -/
def scanFraction (text : Text) : Text × Text :=
  match text with
  | '.' :: rest =>
    let scanned := scanDigits rest
    if scanned.1 = [] then ([], text) else scanned
  | _ => ([], text)

/-- The number after an `e`; an `e` without digits stays in the text. -/
def scanExponent (text : Text) : ℤ × Text :=
  match text with
  | c :: rest =>
    if c = 'e' ∨ c = 'E' then
      let sign := scanSign rest
      let scanned := scanDigits sign.2
      if scanned.1 = [] then (0, text)
      else
        let value : ℤ := Nat.ofDigitChars 10 scanned.1 0
        (if sign.1 then -value else value, scanned.2)
    else (0, text)
  | [] => (0, [])

/-- The positive finite number that a text is, after white space. -/
def parsePositiveFiniteRealText (text : Text) : Option Seconds :=
  let sign := scanSign (text.dropWhile isSpace)
  let whole := scanDigits sign.2
  let fraction := scanFraction whole.2
  let exponent := scanExponent fraction.2
  let value := seconds (Nat.ofDigitChars 10 (whole.1 ++ fraction.1) 0)
    (exponent.1 - fraction.1.length)
  if whole.1 = [] ∧ fraction.1 = [] then none
  else if exponent.2 = [] ∧ value < 2 ^ 1024 * second ∧ sign.1 = false ∧ 0 < value then some value
  else none

/-! ### Writing a number -/

/-- The power of ten of a positive number's first digit. -/
def decimalExponent (value : Seconds) : ℤ :=
  if second ≤ value then (decimal (value / second)).length - 1
  else -(((List.range 324).find? fun s ↦ second ≤ value * 10 ^ s).getD 324 : ℕ)

/-- The twelve first digits of a positive number, rounded, and the power of ten of the first. -/
def twelveDigits (value : Seconds) : ℕ × ℤ :=
  let e := decimalExponent value
  let digits :=
    match 11 - e with
    | .ofNat k => roundedQuotient (value * 10 ^ k) second
    | .negSucc k => roundedQuotient value (second * 10 ^ (k + 1))
  if digits = 10 ^ 12 then (10 ^ 11, e + 1) else (digits, e)

/-- The digits around a point, with a zero where there is no fraction. -/
def pointText (whole fraction : Text) : Text :=
  whole ++ '.' :: (if fraction = [] then ['0'] else fraction)

/-- A number of seconds in its shorter form: with its point in place, or with a power of ten. -/
def realText (value : Seconds) : Text :=
  if value = 0 then "0.0".toList
  else
    let digits := (decimal (twelveDigits value).1).rdropWhile (· = '0')
    match (twelveDigits value).2 with
    | .ofNat e =>
      if e < 12 then
        pointText ((digits ++ List.replicate (e + 1 - digits.length) '0').take (e + 1))
          (digits.drop (e + 1))
      else
        digits.take 1 ++ (if digits.drop 1 = [] then [] else '.' :: digits.drop 1) ++
          'E' :: decimal e
    | .negSucc e =>
      if e < 4 then pointText ['0'] (List.replicate e '0' ++ digits)
      else
        digits.take 1 ++ (if digits.drop 1 = [] then [] else '.' :: digits.drop 1) ++
          "E~".toList ++ decimal (e + 1)

/-! ### Timeouts -/

/-- The limit proofs are checked under, if there is one. -/
abbrev Timeout := Option Seconds

def timeoutText : Timeout → Text
  | none => "none".toList
  | some seconds => realText seconds

def parseTimeoutText (text : Text) : Option Timeout :=
  if text = "none".toList then some none else (parsePositiveFiniteRealText text).map some

def timeoutSatisfies (requested built : Timeout) : Bool :=
  match requested with
  | none => true
  | some requestedSeconds =>
    match built with
    | some builtSeconds => decide (builtSeconds ≤ requestedSeconds)
    | none => false

def timeoutAtLeastAsStrong (candidate reference : Timeout) : Bool :=
  timeoutSatisfies reference candidate

/-- The limit of entries that record none. -/
def legacyDefaultProofTimeout : Timeout := some (seconds 25 (-1))

def timeoutMin : Timeout → Timeout → Timeout
  | none, timeout => timeout
  | timeout, none => timeout
  | some a, some b => some (min a b)

def timeoutEqual : Timeout → Timeout → Bool
  | none, none => true
  | some a, some b => a = b
  | _, _ => false

variable {candidate reference other : Timeout}

theorem atLeastAsStrong_refl (timeout : Timeout) : timeoutAtLeastAsStrong timeout timeout := by
  cases timeout with
  | none => rfl
  | some seconds => exact decide_eq_true le_rfl

theorem atLeastAsStrong_trans (h : timeoutAtLeastAsStrong candidate reference)
    (h' : timeoutAtLeastAsStrong reference other) : timeoutAtLeastAsStrong candidate other := by
  rcases other with _ | other
  · rfl
  · rcases reference with _ | reference
    · cases h'
    · rcases candidate with _ | candidate
      · cases h
      · exact decide_eq_true ((of_decide_eq_true h).trans (of_decide_eq_true h'))

theorem atLeastAsStrong_total (h : timeoutAtLeastAsStrong candidate reference = false) :
    timeoutAtLeastAsStrong reference candidate := by
  rcases candidate with _ | candidate
  · rfl
  · rcases reference with _ | reference
    · cases h
    · exact decide_eq_true (not_le.mp (of_decide_eq_false h)).le

/-- A timeout at least as strong as another satisfies every request that the other does. -/
theorem timeoutSatisfies_of_atLeastAsStrong {request : Timeout}
    (h : timeoutAtLeastAsStrong candidate reference) (hrequest : timeoutSatisfies request reference) :
    timeoutSatisfies request candidate :=
  atLeastAsStrong_trans h hrequest

theorem timeoutEqual_iff : timeoutEqual candidate reference ↔ candidate = reference := by
  rcases candidate with _ | a <;> rcases reference with _ | b <;> simp [timeoutEqual]

/-- The least of two timeouts is the first, or it is the second and the stronger one. -/
theorem timeoutMin_cases (first other : Timeout) :
    timeoutMin first other = first ∧ timeoutAtLeastAsStrong first other ∨
      timeoutMin first other = other ∧ timeoutAtLeastAsStrong other first := by
  rcases first with _ | a
  · exact .inr ⟨by cases other <;> rfl, rfl⟩
  · rcases other with _ | b
    · exact .inl ⟨rfl, rfl⟩
    · rcases le_total a b with hab | hba
      · exact .inl ⟨congrArg some (min_eq_left hab), decide_eq_true hab⟩
      · exact .inr ⟨congrArg some (min_eq_right hba), decide_eq_true hba⟩

end Holbuild.Cache
