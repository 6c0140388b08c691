import Holbuild.Library.Literals

/-!
# JSON objects

One-line objects whose members are strings, integers and nulls, as a writer that escapes all but printable
ASCII renders them (`dumps`), and what they say: `stringValue` is the string a member holds.
-/

set_option autoImplicit false
set_option relaxedAutoImplicit false

namespace Holbuild.Library.Json

/-- A value of a member. -/
inductive Value
  | string (text : Text)
  | number (n : ℤ)
  | null
deriving DecidableEq

/-- The members of an object, in order. -/
abbrev Object := List (String × Value)

def Value.asString : Value → Option Text
  | .string text => some text
  | _ => none

/-- The string a member of the object holds. -/
def stringValue (name : String) (object : Object) : Option Text := (object.lookup name).bind Value.asString

/-! ### Rendering -/

/-- The escape of a UTF-16 code unit. -/
def unitEscape (n : ℕ) : Text :=
  ['\\', 'u', Nat.digitChar (n / 4096 % 16), Nat.digitChar (n / 256 % 16), Nat.digitChar (n / 16 % 16),
    Nat.digitChar (n % 16)]

/-- A character inside quotes. -/
def escapeChar (c : Char) : Text :=
  if c = '"' then ['\\', '"']
  else if c = '\\' then ['\\', '\\']
  else if c = '\n' then ['\\', 'n']
  else if c = '\r' then ['\\', 'r']
  else if c = '\t' then ['\\', 't']
  else if c = '\x0c' then ['\\', 'f']
  else if c = '\x08' then ['\\', 'b']
  else if isPrintable c then [c]
  else if c.toNat < 0x10000 then unitEscape c.toNat
  else unitEscape (0xd800 + (c.toNat - 0x10000) / 1024) ++ unitEscape (0xdc00 + (c.toNat - 0x10000) % 1024)

def escape (text : Text) : Text := text.flatMap escapeChar

def quoted (text : Text) : Text := '"' :: (escape text ++ ['"'])

/-- The decimal text of an integer. -/
def integer : ℤ → Text
  | .ofNat n => decimal n
  | .negSucc n => '-' :: decimal (n + 1)

def Value.text : Value → Text
  | .string text => quoted text
  | .number n => integer n
  | .null => "null".toList

/-- What stands after a comma and a colon. -/
def spacing (compact : Bool) : Text := if compact then [] else [' ']

def memberText (compact : Bool) (member : String × Value) : Text :=
  quoted member.1.toList ++ ':' :: (spacing compact ++ member.2.text)

/-- The members after the opening brace. -/
def membersText (compact : Bool) (object : Object) : Text :=
  List.intercalate (',' :: spacing compact) (object.map (memberText compact)) ++ ['}']

/-- An object on one line. -/
def dumps (compact : Bool) (object : Object) : Text := '{' :: membersText compact object

/-! ### What is rendered -/

@[simp] theorem escape_nil : escape [] = [] := rfl

@[simp] theorem escape_cons (c : Char) (text : Text) : escape (c :: text) = escapeChar c ++ escape text := rfl

theorem escape_append (first second : Text) : escape (first ++ second) = escape first ++ escape second :=
  List.flatMap_append

theorem escapeChar_of_isPrintable {c : Char} (hc : isPrintable c = true) (hquote : c ≠ '"')
    (hescape : c ≠ '\\') : escapeChar c = [c] := by
  have hne {d : Char} (hd : isPrintable d = false) : c ≠ d := fun h ↦ by rw [← h, hc] at hd; cases hd
  rw [escapeChar, if_neg hquote, if_neg hescape, if_neg (hne (by decide)), if_neg (hne (by decide)),
    if_neg (hne (by decide)), if_neg (hne (by decide)), if_neg (hne (by decide)), if_pos hc]

theorem membersText_singleton (compact : Bool) (member : String × Value) :
    membersText compact [member] = memberText compact member ++ ['}'] := by
  simp [membersText, List.intercalate]

theorem membersText_cons_cons (compact : Bool) (member next : String × Value) (rest : Object) :
    membersText compact (member :: next :: rest) =
      memberText compact member ++ ',' :: (spacing compact ++ membersText compact (next :: rest)) := by
  simp [membersText, List.intercalate]

/-! ### One line -/

theorem newline_notMem_unitEscape (n : ℕ) : '\n' ∉ unitEscape n := by
  have hdigit (k : ℕ) : '\n' ≠ Nat.digitChar (k % 16) := by
    have hall : ∀ n < 16, '\n' ≠ Nat.digitChar n := by decide
    exact hall _ (Nat.mod_lt k (by decide))
  simp [unitEscape, hdigit]

theorem newline_notMem_escape (text : Text) : '\n' ∉ escape text := by
  rw [escape, List.mem_flatMap]
  rintro ⟨c, -, hc⟩
  rw [escapeChar] at hc
  split_ifs at hc with _ _ hnewline
  all_goals try exact absurd hc (by decide)
  · rw [List.mem_singleton] at hc
    exact hnewline hc.symm
  · exact newline_notMem_unitEscape _ hc
  · rcases List.mem_append.mp hc with hc | hc <;> exact newline_notMem_unitEscape _ hc

theorem newline_notMem_quoted (text : Text) : '\n' ∉ quoted text := by
  simp [quoted, newline_notMem_escape]

theorem newline_notMem_value (value : Value) : '\n' ∉ value.text := by
  have hdecimal (n : ℕ) : '\n' ∉ decimal n := fun h ↦
    absurd (isDigit_of_mem_decimal h) (by decide)
  cases value with
  | string text => exact newline_notMem_quoted text
  | number n =>
    rcases n with n | n
    · exact hdecimal n
    · intro h
      rcases List.mem_cons.mp h with h | h
      · exact absurd h (by decide)
      · exact hdecimal _ h
  | null => decide

theorem newline_notMem_memberText (compact : Bool) (member : String × Value) :
    '\n' ∉ memberText compact member := by
  have hspacing : '\n' ∉ spacing compact := by cases compact <;> decide
  simp [memberText, newline_notMem_quoted, newline_notMem_value, hspacing]

theorem newline_notMem_membersText (compact : Bool) : ∀ object : Object, '\n' ∉ membersText compact object
  | [] => by simp [membersText, List.intercalate]
  | [member] => by simp [membersText_singleton, newline_notMem_memberText]
  | member :: next :: rest => by
    have hspacing : '\n' ∉ spacing compact := by cases compact <;> decide
    rw [membersText_cons_cons]
    simp [newline_notMem_memberText, hspacing, newline_notMem_membersText compact (next :: rest)]

/-- An object is on one line. -/
theorem newline_notMem_dumps (compact : Bool) (object : Object) : '\n' ∉ dumps compact object := by
  simp [dumps, newline_notMem_membersText]

end Holbuild.Library.Json
