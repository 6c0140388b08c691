import Holbuild.Library.Texts
import Mathlib.Data.Char
import Mathlib.Data.Int.Basic
import Mathlib.Data.List.TakeWhile

/-!
# Texts and integers as Standard ML writes them

`stringToString` writes a text as a string literal without its quotes: a printable character as it is,
and any other as an escape. `stringFromString` reads as many characters as it can. It reads back every
written text of bytes (`stringFromString_stringToString`), in which no control character occurs
(`printable_of_mem_stringToString`). `intFromString` reads back what `intToString` writes
(`intFromString_intToString`).
-/

set_option autoImplicit false
set_option relaxedAutoImplicit false

namespace Holbuild.Library

/-! ### Characters -/

/-- The escapes with a letter or a mark of their own. -/
def namedEscapes : List (Char × Char) :=
  [('a', '\x07'), ('b', '\x08'), ('t', '\t'), ('n', '\n'), ('v', '\x0b'), ('f', '\x0c'), ('r', '\r'),
    ('\\', '\\'), ('"', '"')]

/-- The decimal digit of a number below ten. -/
def digitChar (n : ℕ) : Char := Char.ofNat (48 + n)

def isPrintable (c : Char) : Bool := decide (32 ≤ c.toNat) && decide (c.toNat < 127)

/-- A character as a string literal writes it. -/
def charToString (c : Char) : Text :=
  match namedEscapes.find? fun escape ↦ escape.2 = c with
  | some (letter, _) => ['\\', letter]
  | none =>
    if isPrintable c then [c]
    else if c.toNat < 32 then ['\\', '^', Char.ofNat (c.toNat + 64)]
    else ['\\', digitChar (c.toNat / 100), digitChar (c.toNat / 10 % 10), digitChar (c.toNat % 10)]

/-- Reads the letter of a control character. -/
def scanControl : Text → Option (Char × Text)
  | c :: rest =>
    if 64 ≤ c.toNat ∧ c.toNat < 96 then some (Char.ofNat (c.toNat - 64), rest) else none
  | [] => none

/-- Reads the three digits of a byte. -/
def scanCode : Text → Option (Char × Text)
  | a :: b :: c :: rest =>
    if (a.isDigit && b.isDigit && c.isDigit) = true ∧ Nat.ofDigitChars 10 [a, b, c] 0 < 256 then
      some (Char.ofNat (Nat.ofDigitChars 10 [a, b, c] 0), rest)
    else none
  | _ => none

/-- Reads an escape after its backslash. Line gaps and four-digit codes, which are never written, are
not read. -/
def scanEscape : Text → Option (Char × Text)
  | [] => none
  | first :: rest =>
    match namedEscapes.find? fun escape ↦ escape.1 = first with
    | some (_, c) => some (c, rest)
    | none => if first = '^' then scanControl rest else scanCode (first :: rest)

/-- Reads a character. -/
def scanChar : Text → Option (Char × Text)
  | [] => none
  | c :: rest =>
    if c = '\\' then scanEscape rest else if isPrintable c then some (c, rest) else none

/-- Reads as many characters as it can. -/
def scanChars : ℕ → Text → Text
  | 0, _ => []
  | fuel + 1, text =>
    match scanChar text with
    | some (c, rest) => c :: scanChars fuel rest
    | none => []

def stringToString (text : Text) : Text := text.flatMap charToString

/-- The characters that can be read, unless there are some and the first cannot. -/
def stringFromString (text : Text) : Option Text :=
  if text ≠ [] ∧ scanChar text = none then none else some (scanChars text.length text)

/-- A text of Standard ML: its characters are bytes. -/
def Bytes (text : Text) : Prop := ∀ c ∈ text, c.toNat < 256

theorem bytes_of_all {text : Text} (h : text.all (fun c ↦ decide (c.toNat < 256)) = true) :
    Bytes text :=
  fun c hc ↦ of_decide_eq_true (List.all_eq_true.mp h c hc)

theorem toNat_ofNat_of_lt {n : ℕ} (h : n < 55296) : (Char.ofNat n).toNat = n := by
  have hvalid : n.isValidChar := .inl h
  rw [Char.ofNat, dif_pos hvalid]
  rfl

/-- A character written is read back, whatever follows. -/
theorem scanChar_charToString {c : Char} (hc : c.toNat < 256) (rest : Text) :
    scanChar (charToString c ++ rest) = some (c, rest) := by
  unfold charToString
  split
  · rename_i letter c' hfind
    have hmem := List.mem_of_find?_eq_some hfind
    have hchar := List.find?_some hfind
    obtain rfl : c' = c := of_decide_eq_true hchar
    simp only [namedEscapes, List.mem_cons, Prod.mk.injEq, List.not_mem_nil, or_false] at hmem
    rcases hmem with ⟨rfl, rfl⟩ | ⟨rfl, rfl⟩ | ⟨rfl, rfl⟩ | ⟨rfl, rfl⟩ | ⟨rfl, rfl⟩ | ⟨rfl, rfl⟩ |
      ⟨rfl, rfl⟩ | ⟨rfl, rfl⟩ | ⟨rfl, rfl⟩
    all_goals rfl
  · rename_i hfind
    have hslash : c ≠ '\\' := by
      rintro rfl
      exact absurd hfind (by decide)
    split_ifs with hprintable hlow
    · show (if c = '\\' then _ else if isPrintable c then _ else _) = _
      rw [if_neg hslash, if_pos hprintable]
      rfl
    · show (if 64 ≤ (Char.ofNat (c.toNat + 64)).toNat ∧ _ then some (_, rest) else none) = _
      have hvalue : (Char.ofNat (c.toNat + 64)).toNat = c.toNat + 64 :=
        toNat_ofNat_of_lt (by omega)
      rw [hvalue, if_pos (by omega), Nat.add_sub_cancel, Char.ofNat_toNat]
    · have hcodes : ∀ n < 256, (namedEscapes.find? fun escape ↦ escape.1 = digitChar (n / 100)) = none ∧
          digitChar (n / 100) ≠ '^' ∧ ((digitChar (n / 100)).isDigit &&
            (digitChar (n / 10 % 10)).isDigit && (digitChar (n % 10)).isDigit) = true ∧
          Nat.ofDigitChars 10 [digitChar (n / 100), digitChar (n / 10 % 10), digitChar (n % 10)] 0 = n := by
        decide +kernel
      obtain ⟨hnone, hcaret, hdigits, hvalue⟩ := hcodes c.toNat hc
      show scanEscape (digitChar (c.toNat / 100) :: digitChar (c.toNat / 10 % 10) ::
        digitChar (c.toNat % 10) :: rest) = _
      rw [scanEscape, hnone]
      show (if digitChar (c.toNat / 100) = '^' then _ else scanCode _) = _
      rw [if_neg hcaret, scanCode, hvalue, if_pos ⟨hdigits, hc⟩, Char.ofNat_toNat]

theorem newline_notMem_charToString (c : Char) : '\n' ∉ charToString c := by
  have hofNat (n : ℕ) (hn : 48 ≤ n) : Char.ofNat n ≠ '\n' := by
    intro heq
    by_cases hvalid : n.isValidChar
    · rw [Char.ofNat, dif_pos hvalid] at heq
      have hn' : n = 10 := congrArg Char.toNat heq
      omega
    · rw [Char.ofNat, dif_neg hvalid] at heq
      exact absurd heq (by decide)
  have hslash : '\n' ≠ '\\' := by decide
  unfold charToString
  split
  · rename_i letter c' hfind
    have hletters : ∀ escape ∈ namedEscapes, '\n' ∉ ['\\', escape.1] := by decide
    exact hletters _ (List.mem_of_find?_eq_some hfind)
  · rename_i hfind
    have hne : c ≠ '\n' := by
      rintro rfl
      exact absurd hfind (by decide)
    split_ifs
    · simpa using hne.symm
    · simpa using (hofNat (c.toNat + 64) (by omega)).symm
    · have hdigit (n : ℕ) : '\n' ≠ digitChar n := (hofNat (48 + n) (Nat.le_add_right 48 n)).symm
      simp [hdigit]

theorem length_charToString_pos (c : Char) : 0 < (charToString c).length := by
  unfold charToString
  split
  · exact Nat.succ_pos _
  · split_ifs <;> exact Nat.succ_pos _

/-- Reading a written text of bytes gives the text back, with any fuel for its characters. -/
theorem scanChars_stringToString {text : Text} (htext : Bytes text) : ∀ {fuel : ℕ},
    text.length ≤ fuel → scanChars fuel (stringToString text) = text := by
  induction text with
  | nil =>
    intro fuel _
    cases fuel <;> rfl
  | cons c rest ih =>
    intro fuel hfuel
    obtain ⟨fuel, rfl⟩ := Nat.exists_eq_add_one_of_ne_zero (Nat.ne_zero_of_lt hfuel)
    show (match scanChar (charToString c ++ stringToString rest) with
      | some (c, rest) => c :: scanChars fuel rest
      | none => []) = c :: rest
    rw [scanChar_charToString (htext c List.mem_cons_self)]
    exact congrArg (c :: ·)
      (ih (fun d hd ↦ htext d (List.mem_cons_of_mem _ hd)) (Nat.le_of_succ_le_succ hfuel))

theorem length_le_length_stringToString (text : Text) :
    text.length ≤ (stringToString text).length := by
  induction text with
  | nil => exact Nat.zero_le _
  | cons c rest ih =>
    have hpos := length_charToString_pos c
    rw [stringToString, List.flatMap_cons, List.length_append, List.length_cons]
    rw [stringToString] at ih
    omega

/-- A written text of bytes is read back. -/
theorem stringFromString_stringToString {text : Text} (htext : Bytes text) :
    stringFromString (stringToString text) = some text := by
  have hreadable : ¬ (stringToString text ≠ [] ∧ scanChar (stringToString text) = none) := by
    rintro ⟨hne, hnone⟩
    cases text with
    | nil => exact hne rfl
    | cons c rest =>
      rw [stringToString, List.flatMap_cons,
        scanChar_charToString (htext c List.mem_cons_self)] at hnone
      cases hnone
  rw [stringFromString, if_neg hreadable,
    scanChars_stringToString htext (length_le_length_stringToString text)]

/-- A written text of bytes has printable characters only. -/
theorem printable_of_mem_stringToString {text : Text} (htext : Bytes text) {c : Char}
    (hc : c ∈ stringToString text) : isPrintable c = true := by
  have hall : ∀ n < 256, (charToString (Char.ofNat n)).all isPrintable = true := by decide +kernel
  obtain ⟨d, hd, hmem⟩ := List.mem_flatMap.mp hc
  have hchar := hall d.toNat (htext d hd)
  rw [Char.ofNat_toNat] at hchar
  exact List.all_eq_true.mp hchar c hmem

/-! ### Integers -/

/-- An integer with `~` for its sign. -/
def intToString : ℤ → Text
  | .ofNat n => decimal n
  | .negSucc n => '~' :: decimal (n + 1)

/-- The number the digits in front of a text stand for, if there are any. -/
def scanDigits (text : Text) : Option ℕ := readDecimal (text.takeWhile Char.isDigit)

/-- The integer in front of a text, after any space. -/
def intFromString (text : Text) : Option ℤ :=
  match text.dropWhile isSmlSpace with
  | [] => none
  | first :: rest =>
    if first = '~' ∨ first = '-' then (scanDigits rest).map fun n ↦ -(n : ℤ)
    else if first = '+' then (scanDigits rest).map fun n ↦ (n : ℤ)
    else (scanDigits (first :: rest)).map fun n ↦ (n : ℤ)

theorem scanDigits_decimal (n : ℕ) : scanDigits (decimal n) = some n := by
  have hall : (decimal n).takeWhile Char.isDigit = decimal n :=
    List.takeWhile_eq_self_iff.mpr fun c hc ↦ isDigit_of_mem_decimal hc
  rw [scanDigits, hall, readDecimal_decimal]

/-- A digit is neither a space nor a sign. -/
theorem not_space_of_isDigit {c : Char} (hc : c.isDigit = true) :
    isSmlSpace c = false ∧ ¬ (c = '~' ∨ c = '-') ∧ c ≠ '+' := by
  refine ⟨?_, ?_, ?_⟩
  · by_contra hspace
    rw [Bool.not_eq_false] at hspace
    simp only [isSmlSpace, Bool.or_eq_true, decide_eq_true_eq] at hspace
    rcases hspace with ((((rfl | rfl) | rfl) | rfl) | rfl) | rfl
    all_goals exact absurd hc (by decide)
  · rintro (rfl | rfl)
    all_goals exact absurd hc (by decide)
  · rintro rfl
    exact absurd hc (by decide)

/-- A written integer is read back. -/
theorem intFromString_intToString (n : ℤ) : intFromString (intToString n) = some n := by
  cases n with
  | ofNat n =>
    obtain ⟨first, rest, hdecimal⟩ := List.exists_cons_of_ne_nil (decimal_ne_nil n)
    obtain ⟨hspace, hminus, hplus⟩ := not_space_of_isDigit
      (isDigit_of_mem_decimal (hdecimal ▸ List.mem_cons_self))
    have hread := scanDigits_decimal n
    rw [hdecimal] at hread
    rw [intToString, hdecimal, intFromString,
      List.dropWhile_cons_of_neg (by rw [hspace]; exact Bool.false_ne_true)]
    show (if first = '~' ∨ first = '-' then _ else _) = _
    rw [if_neg hminus, if_neg hplus, hread]
    rfl
  | negSucc n =>
    have hspace : isSmlSpace '~' = false := by decide
    rw [intToString, intFromString,
      List.dropWhile_cons_of_neg (by rw [hspace]; exact Bool.false_ne_true)]
    show (if '~' = '~' ∨ '~' = '-' then _ else _) = _
    rw [if_pos (.inl rfl), scanDigits_decimal]
    rfl

/-- A written integer has printable characters only. -/
theorem printable_of_mem_intToString {n : ℤ} {c : Char} (hc : c ∈ intToString n) :
    isPrintable c = true := by
  have hdigit : ∀ c : Char, c.isDigit = true → isPrintable c = true := by
    intro c hc
    rw [Char.isDigit, Bool.and_eq_true, decide_eq_true_eq, decide_eq_true_eq] at hc
    have hlow := UInt32.le_iff_toNat_le.mp hc.1
    have hhigh := UInt32.le_iff_toNat_le.mp hc.2
    rw [isPrintable, Bool.and_eq_true, decide_eq_true_eq, decide_eq_true_eq]
    change 48 ≤ c.toNat at hlow
    change c.toNat ≤ 57 at hhigh
    omega
  cases n with
  | ofNat n => exact hdigit c (isDigit_of_mem_decimal hc)
  | negSucc n =>
    rcases List.mem_cons.mp hc with rfl | hc
    · decide
    · exact hdigit c (isDigit_of_mem_decimal hc)

theorem intToString_ne_nil (n : ℤ) : intToString n ≠ [] := by
  cases n with
  | ofNat n => exact decimal_ne_nil n
  | negSucc n => exact List.cons_ne_nil _ _

end Holbuild.Library
