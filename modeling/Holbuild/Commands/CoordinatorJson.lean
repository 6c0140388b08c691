import Holbuild.Commands.RemoteBuild
import Holbuild.Library.Json
import Holbuild.RemoteExec.EventStream

/-!
# The coordinator's JSON at the client

The client has no JSON parser: `json_string_field` looks for the quoted name of a field anywhere in the text,
and decodes the escapes of quotes, backslashes, newlines and tabs. What the coordinator writes, and which
fields of it the client reads as they are.
-/

set_option autoImplicit false
set_option relaxedAutoImplicit false

namespace Holbuild.Commands

open Library Library.Json RemoteExec

/-! ### The client -/

/-- The text up to the closing quote, with the one held in reverse before it. -/
def unescape : Text → Text → Option Text
  | '\\' :: c :: rest, acc =>
    unescape rest ((match c with | 'n' => '\n' | 't' => '\t' | c => c) :: acc)
  | '"' :: _, acc => some acc.reverse
  | c :: rest, acc => unescape rest (c :: acc)
  | [], _ => none

/-- The text after a field's name, read as its string value. -/
def fieldValue (text : Text) : Option Text :=
  match text.dropWhile isSmlSpace with
  | ':' :: value =>
    match value.dropWhile isSmlSpace with
    | '"' :: rest => unescape rest []
    | _ => none
  | _ => none

/-- A field's name in quotes. -/
def fieldKey (name : String) : Text := '"' :: (name.toList ++ ['"'])

def jsonStringField (name : String) (text : Text) : Option Text :=
  match findSubstring (fieldKey name) text with
  | none => none
  | some found => fieldValue (found.drop (fieldKey name).length)

/-- How a batch ended, from the line that says so. -/
def batchOutcome (line : Text) (failure : Option ProofFailure) : Outcome :=
  match jsonStringField "state" line with
  | none => .failed "finished in an unknown state" failure
  | some state =>
    if state = "done".toList then .done
    else if state = "cancelled".toList then .cancelled
    else .failed (String.ofList (state ++
      match jsonStringField "failure" line with
      | some failure => ": ".toList ++ failure
      | none => [])) failure

/-! ### What the coordinator writes -/

def stateText : ActionState → String
  | .waiting => "waiting"
  | .ready => "ready"
  | .running => "running"
  | .done => "done"
  | .failed => "failed"
  | .cancelled => "cancelled"

def batchStateText : BatchState → String
  | .running => "running"
  | .failed => "failed"
  | .cancelled => "cancelled"
  | .done => "done"

def tierText : Tier → String
  | .standard => "standard"
  | .high => "high"

/-- A string or `null`. -/
def optionalText : Option String → Value
  | some text => .string text.toList
  | none => .null

/-- `{"type": "action", **asdict(action)}`. -/
def actionObject (action : ActionStatus) : Object :=
  [("type", .string "action".toList), ("input_key", .string action.inputKey.toList),
    ("theory", .string action.theory.toList), ("state", .string (stateText action.state).toList),
    ("tier", .string (tierText action.tier).toList), ("attempts", .number action.attempts),
    ("last_failure", optionalText (action.lastFailure.map Failure.text)),
    ("log_sha256", optionalText action.logSha256)]

/-- The line that ends a batch. -/
def batchObject (state : BatchState) (failure : Option String) : Object :=
  [("type", .string "batch".toList), ("state", .string (batchStateText state).toList),
    ("failure", optionalText failure)]

/-- A line of the event stream. -/
def lineOfObject (object : Object) : Text := dumps false object ++ ['\n']

/-- The answer to a submission: the 32 hexadecimal digits of a UUID, in groups. -/
def uuidText (digit : ℕ → Fin 16) : Text :=
  let digits (start stop : ℕ) := (List.range' start (stop - start)).map fun i ↦ Nat.digitChar (digit i)
  digits 0 8 ++ '-' :: (digits 8 12 ++ '-' :: (digits 12 16 ++ '-' :: (digits 16 20 ++ '-' :: digits 20 32)))

def submitAnswer (digit : ℕ → Fin 16) : Object := [("batch_id", .string (uuidText digit))]

def cancelAnswer (state : BatchState) : Object := [("state", .string (batchStateText state).toList)]

/-- The names the client asks for. -/
def clientFields : List String :=
  ["type", "input_key", "theory", "state", "last_failure", "log_sha256", "failure", "batch_id"]

/-! ### Decoding -/

/-- A character whose escape the client decodes. -/
def isPlain (c : Char) : Bool := isPrintable c || c = '\n' || c = '\t'

/-- What the client makes of the escape of a character: it only takes the backslash away. -/
def decodedChar (c : Char) : Text :=
  if isPlain c then [c]
  else if c = '\r' then ['r']
  else if c = '\x0c' then ['f']
  else if c = '\x08' then ['b']
  else if c.toNat < 0x10000 then (unitEscape c.toNat).tail
  else (unitEscape (0xd800 + (c.toNat - 0x10000) / 1024)).tail ++
    (unitEscape (0xdc00 + (c.toNat - 0x10000) % 1024)).tail

/-- What the client makes of a text. -/
def decoded (text : Text) : Text := text.flatMap decodedChar

theorem unescape_plain {c : Char} (hquote : c ≠ '"') (hescape : c ≠ '\\') (rest acc : Text) :
    unescape (c :: rest) acc = unescape rest (c :: acc) := by
  rw [unescape]
  · exact fun d tail hc _ ↦ hescape hc
  · exact hquote

theorem digitChar_plain {n : ℕ} (hn : n < 16) : Nat.digitChar n ≠ '"' ∧ Nat.digitChar n ≠ '\\' ∧
    Nat.digitChar n ≠ ' ' := by
  have hall : ∀ n < 16, Nat.digitChar n ≠ '"' ∧ Nat.digitChar n ≠ '\\' ∧ Nat.digitChar n ≠ ' ' := by decide
  exact hall n hn

theorem unescape_unitEscape (n : ℕ) (rest acc : Text) :
    unescape (unitEscape n ++ rest) acc = unescape rest ((unitEscape n).tail.reverse ++ acc) := by
  have hdigit (k : ℕ) (rest acc : Text) : unescape (Nat.digitChar (k % 16) :: rest) acc =
      unescape rest (Nat.digitChar (k % 16) :: acc) := by
    have hplain := digitChar_plain (Nat.mod_lt k (by decide : 0 < 16))
    exact unescape_plain hplain.1 hplain.2.1 rest acc
  have hfirst (rest : Text) : unescape ('\\' :: 'u' :: rest) acc = unescape rest ('u' :: acc) := rfl
  simp only [unitEscape, List.cons_append, List.nil_append, hfirst, hdigit, List.tail_cons,
    List.reverse_cons, List.reverse_nil]

theorem unescape_escapeChar (c : Char) (rest acc : Text) :
    unescape (escapeChar c ++ rest) acc = unescape rest ((decodedChar c).reverse ++ acc) := by
  rw [escapeChar]
  split_ifs with hquote hescape hnewline hreturn htab hfeed hback hprintable hunit
  · subst hquote; rfl
  · subst hescape; rfl
  · subst hnewline; rfl
  · subst hreturn; rfl
  · subst htab; rfl
  · subst hfeed; rfl
  · subst hback; rfl
  · have hplain : isPlain c = true := by rw [isPlain, hprintable]; rfl
    rw [decodedChar, if_pos hplain]
    exact unescape_plain hquote hescape rest acc
  · have hplain : ¬ isPlain c = true := by simp [isPlain, hprintable, hnewline, htab]
    rw [decodedChar, if_neg hplain, if_neg hreturn, if_neg hfeed, if_neg hback, if_pos hunit,
      unescape_unitEscape]
  · have hplain : ¬ isPlain c = true := by simp [isPlain, hprintable, hnewline, htab]
    rw [decodedChar, if_neg hplain, if_neg hreturn, if_neg hfeed, if_neg hback, if_neg hunit,
      List.append_assoc, unescape_unitEscape, unescape_unitEscape, List.reverse_append, List.append_assoc]

theorem unescape_escape (text rest acc : Text) :
    unescape (escape text ++ '"' :: rest) acc = some (acc.reverse ++ decoded text) := by
  induction text generalizing acc with
  | nil => rw [escape_nil, List.nil_append, unescape, decoded, List.flatMap_nil, List.append_nil]
  | cons c text ih =>
    rw [escape_cons, List.append_assoc, unescape_escapeChar, ih, decoded, decoded, List.flatMap_cons,
      List.reverse_append, List.reverse_reverse, List.append_assoc]

/-- The client decodes a character to itself, or to a text that starts with another. -/
theorem head_decodedChar {c : Char} (hc : isPlain c = false) : ∃ d rest, decodedChar c = d :: rest ∧ d ≠ c := by
  have hne {d : Char} (hd : isPlain d = true) : d ≠ c := fun h ↦ by rw [h, hc] at hd; cases hd
  rw [decodedChar, if_neg (by rw [hc]; decide)]
  split_ifs
  · exact ⟨'r', [], rfl, hne rfl⟩
  · exact ⟨'f', [], rfl, hne rfl⟩
  · exact ⟨'b', [], rfl, hne rfl⟩
  · exact ⟨'u', _, rfl, hne rfl⟩
  · exact ⟨'u', _, rfl, hne rfl⟩

/-- The client decodes a text exactly if it consists of characters whose escapes it knows. -/
theorem decoded_eq_iff {text : Text} : decoded text = text ↔ ∀ c ∈ text, isPlain c = true := by
  induction text with
  | nil => simp [decoded]
  | cons c text ih =>
    rcases hc : isPlain c with _ | _
    · obtain ⟨d, rest, hd, hne⟩ := head_decodedChar hc
      refine iff_of_false (fun h ↦ ?_) (fun h ↦ ?_)
      · rw [decoded, List.flatMap_cons, hd, List.cons_append] at h
        exact hne (List.cons.inj h).1
      · rw [h c List.mem_cons_self] at hc
        cases hc
    · have hdecoded : decoded (c :: text) = c :: decoded text := by
        rw [decoded, List.flatMap_cons, decodedChar, if_pos hc]
        rfl
      rw [hdecoded, List.cons.injEq, List.forall_mem_cons, ih]
      exact and_congr (iff_of_true rfl hc) Iff.rfl

/-! ### Where a field's name is found -/

/-- Names of fields need no escapes, and no such name starts as what follows a string. -/
def isNameChar (c : Char) : Bool := isPrintable c && c ∉ ['"', '\\', ':', ',', '}']

/-- The name of a field. -/
structure FieldName (name : String) : Prop where
  ne_nil : name.toList ≠ []
  plain : ∀ c ∈ name.toList, isNameChar c = true

/-- A string value ends as the quoted name of a field does, the quote before the name being the value's own
first quote or one in it. -/
def Hides (name : String) (text : Text) : Prop := ('"' :: name.toList) <:+ ('"' :: text)

instance (name : String) (text : Text) : Decidable (Hides name text) :=
  inferInstanceAs (Decidable (_ <:+ _))

theorem findSubstring_skip {needle : Text} {c d : Char} (hne : c ≠ d) (rest : Text) :
    findSubstring (c :: needle) (d :: rest) = findSubstring (c :: needle) rest := by
  rw [findSubstring, if_neg]
  simp [hne]

theorem findSubstring_append {needle : Text} {c : Char} {text : Text} (hc : c ∉ text) (rest : Text) :
    findSubstring (c :: needle) (text ++ rest) = findSubstring (c :: needle) rest := by
  induction text with
  | nil => rfl
  | cons d text ih =>
    rw [List.mem_cons, not_or] at hc
    rw [List.cons_append, findSubstring_skip hc.1, ih hc.2]

theorem quote_notMem_escapeChar {c : Char} (hquote : c ≠ '"') : '"' ∉ escapeChar c := by
  have hunit (n : ℕ) : '"' ∉ unitEscape n := by
    have hdigit (k : ℕ) : Nat.digitChar (k % 16) ≠ '"' :=
      (digitChar_plain (Nat.mod_lt k (by decide))).1
    simp [unitEscape, (hdigit _).symm]
  rw [escapeChar, if_neg hquote]
  split_ifs
  any_goals decide
  · simpa using hquote.symm
  · exact hunit _
  · rw [List.mem_append, not_or]
    exact ⟨hunit _, hunit _⟩

/-- The escape of a character is the character, or starts with a backslash. -/
theorem escapeChar_cases (c : Char) : escapeChar c = [c] ∧ c ≠ '"' ∧ c ≠ '\\' ∨
    ¬ isNameChar c = true ∧ ∃ rest, escapeChar c = '\\' :: rest := by
  by_cases hquote : c = '"'
  · subst hquote
    exact .inr ⟨by decide, _, rfl⟩
  by_cases hescape : c = '\\'
  · subst hescape
    exact .inr ⟨by decide, _, rfl⟩
  by_cases hprintable : isPrintable c = true
  · exact .inl ⟨escapeChar_of_isPrintable hprintable hquote hescape, hquote, hescape⟩
  · refine .inr ⟨by simp [isNameChar, hprintable], ?_⟩
    rw [escapeChar, if_neg hquote, if_neg hescape]
    split_ifs <;> exact ⟨_, rfl⟩

/-- A name and a quote stand at the start of the rest of a string exactly if the rest is the name. -/
theorem prefix_escape_iff {name : Text} (hname : ∀ c ∈ name, isNameChar c = true) (text rest : Text) :
    name ++ ['"'] <+: escape text ++ '"' :: rest ↔ name = text := by
  induction name generalizing text with
  | nil =>
    rcases text with _ | ⟨c, text⟩
    · simp
    · obtain ⟨hc, hquote, -⟩ | ⟨-, tail, hc⟩ := escapeChar_cases c
      · simp [hc, hquote.symm]
      · simp [hc]
  | cons n name ih =>
    rcases text with _ | ⟨c, text⟩
    · have hquote : n ≠ '"' := by
        rintro rfl
        exact absurd (hname _ List.mem_cons_self) (by decide)
      simp [hquote]
    · obtain ⟨hc, -⟩ | ⟨hc, tail, htail⟩ := escapeChar_cases c
      · rw [escape_cons, hc, List.cons_append, List.singleton_append, List.cons_append, List.cons_prefix_cons,
          ih fun d hd ↦ hname d (List.mem_cons_of_mem _ hd), List.cons.injEq]
      · have hslash : n ≠ '\\' := by
          rintro rfl
          exact absurd (hname _ List.mem_cons_self) (by decide)
        have hne : n ≠ c := fun h ↦ hc (h ▸ hname n List.mem_cons_self)
        simp [htail, hslash, hne]

/-- The search at a quote before the rest of a string: it finds the name there, or goes on behind. -/
theorem findSubstring_quote {name : String} (hname : FieldName name) (text rest : Text) :
    findSubstring (fieldKey name) ('"' :: (escape text ++ '"' :: rest)) =
      if name.toList = text then some (fieldKey name ++ rest)
      else findSubstring (fieldKey name) (escape text ++ '"' :: rest) := by
  have hstarts : (fieldKey name).isPrefixOf ('"' :: (escape text ++ '"' :: rest)) = true ↔
      name.toList = text := by
    rw [List.isPrefixOf_iff_prefix, fieldKey, List.cons_prefix_cons, prefix_escape_iff hname.plain]
    exact and_iff_right rfl
  rw [findSubstring]
  by_cases heq : name.toList = text
  · rw [if_pos (hstarts.mpr heq), if_pos heq, ← heq, fieldKey]
    have hescape : escape name.toList = name.toList := by
      have hplain : ∀ c ∈ name.toList, escapeChar c = [c] := fun c hc ↦ by
        obtain ⟨hc, -⟩ | ⟨hchar, -⟩ := escapeChar_cases c
        · exact hc
        · exact absurd (hname.plain c hc) hchar
      rw [escape, List.flatMap_congr hplain]
      simp
    rw [hescape, List.cons_append, List.append_assoc]
    rfl
  · rw [if_neg (fun h ↦ heq (hstarts.mp h)), if_neg heq]

/-- The search at the closing quote of a string. -/
theorem findSubstring_close {name : String} (hname : FieldName name) {c : Char} (rest : Text)
    (hc : isNameChar c = false) :
    findSubstring (fieldKey name) ('"' :: c :: rest) = findSubstring (fieldKey name) (c :: rest) := by
  obtain ⟨n, tail, hn⟩ := List.exists_cons_of_ne_nil hname.ne_nil
  have hne : n ≠ c := by
    rintro rfl
    rw [hname.plain n (hn ▸ List.mem_cons_self)] at hc
    cases hc
  rw [findSubstring, if_neg]
  rw [List.isPrefixOf_iff_prefix, fieldKey, hn]
  simp [hne]

/-- The search inside a string. -/
theorem findSubstring_escape {name : String} (hname : FieldName name) {c : Char} (rest : Text)
    (hc : isNameChar c = false) (text : Text) :
    findSubstring (fieldKey name) (escape text ++ '"' :: c :: rest) =
      if ('"' :: name.toList) <:+ text then some (fieldKey name ++ c :: rest)
      else findSubstring (fieldKey name) (c :: rest) := by
  induction text with
  | nil =>
    rw [if_neg (by simp)]
    exact findSubstring_close hname rest hc
  | cons d text ih =>
    by_cases hquote : d = '"'
    · subst hquote
      have hsuffix : ('"' :: name.toList) <:+ ('"' :: text) ↔
          name.toList = text ∨ ('"' :: name.toList) <:+ text := by
        rw [List.suffix_cons_iff, List.cons.injEq]
        exact or_congr_left (and_iff_right rfl)
      have hskip : findSubstring (fieldKey name) (escape ('"' :: text) ++ '"' :: c :: rest) =
          findSubstring (fieldKey name) ('"' :: (escape text ++ '"' :: c :: rest)) :=
        findSubstring_skip (by decide) _
      rw [hskip, findSubstring_quote hname, ih]
      by_cases heq : name.toList = text
      · rw [if_pos heq, if_pos (hsuffix.mpr (.inl heq))]
      · rw [if_neg heq]
        exact if_congr ⟨fun h ↦ hsuffix.mpr (.inr h), fun h ↦ (hsuffix.mp h).resolve_left heq⟩ rfl rfl
    · have hsuffix : ('"' :: name.toList) <:+ (d :: text) ↔ ('"' :: name.toList) <:+ text := by
        rw [List.suffix_cons_iff, List.cons.injEq]
        exact or_iff_right fun h ↦ hquote h.1.symm
      rw [escape_cons, List.append_assoc]
      exact (findSubstring_append (quote_notMem_escapeChar hquote) _).trans
        (ih.trans (if_congr hsuffix.symm rfl rfl))

/-- The search at a string: it finds the name in the string's last characters, or behind the string. -/
theorem findSubstring_quoted {name : String} (hname : FieldName name) {c : Char} (rest : Text)
    (hc : isNameChar c = false) (text : Text) :
    findSubstring (fieldKey name) (quoted text ++ c :: rest) =
      if Hides name text then some (fieldKey name ++ c :: rest)
      else findSubstring (fieldKey name) (c :: rest) := by
  have htext : quoted text ++ c :: rest = '"' :: (escape text ++ '"' :: c :: rest) := by
    simp [quoted]
  have hhides : Hides name text ↔ name.toList = text ∨ ('"' :: name.toList) <:+ text := by
    rw [Hides, List.suffix_cons_iff, List.cons.injEq]
    exact or_congr_left (and_iff_right rfl)
  rw [htext, findSubstring_quote hname, findSubstring_escape hname rest hc]
  by_cases heq : name.toList = text
  · rw [if_pos heq, if_pos (hhides.mpr (.inl heq))]
  · rw [if_neg heq]
    exact if_congr ⟨fun h ↦ hhides.mpr (.inr h), fun h ↦ (hhides.mp h).resolve_left heq⟩ rfl rfl

/-! ### Reading an object -/

/-- A value's string hides the name. -/
def hiddenBy (name : String) (value : Value) : Bool := value.asString.any fun text ↦ Hides name text

/-- What the client reads of an object: the first member of the name, unless a string before it hides it. -/
def readMember (name : String) : Object → Option Text
  | [] => none
  | (field, value) :: rest =>
    if field = name then value.asString.map decoded
    else if hiddenBy name value then none
    else readMember name rest

theorem dropWhile_isSmlSpace {c : Char} (hspace : isSmlSpace c = false) (rest : Text) :
    (c :: rest).dropWhile isSmlSpace = c :: rest :=
  List.dropWhile_cons_of_neg (by rw [hspace]; decide)

theorem dropWhile_spacing {c : Char} (hspace : isSmlSpace c = false) (compact : Bool) (rest : Text) :
    (spacing compact ++ c :: rest).dropWhile isSmlSpace = c :: rest := by
  cases compact <;> exact dropWhile_isSmlSpace hspace rest

theorem fieldValue_of_ne {c : Char} (hspace : isSmlSpace c = false) (hc : c ≠ ':') (rest : Text) :
    fieldValue (c :: rest) = none := by
  rw [fieldValue, dropWhile_isSmlSpace hspace]
  split
  · next h => exact absurd (List.cons.inj h).1 hc
  · rfl

theorem integer_chars (n : ℤ) : ∀ c ∈ integer n, isSmlSpace c = false ∧ c ≠ '"' := by
  have hdecimal {n : ℕ} {c : Char} (hc : c ∈ decimal n) : isSmlSpace c = false ∧ c ≠ '"' := by
    have hdigit := isDigit_of_mem_decimal hc
    constructor
    · rw [Bool.eq_false_iff]
      intro hspace
      simp only [isSmlSpace, Bool.or_eq_true, decide_eq_true_eq] at hspace
      rcases hspace with ((((rfl | rfl) | rfl) | rfl) | rfl) | rfl <;> exact absurd hdigit (by decide)
    · rintro rfl
      exact absurd hdigit (by decide)
  intro c hc
  rcases n with n | n
  · exact hdecimal hc
  · rcases List.mem_cons.mp hc with rfl | hc
    · exact ⟨by decide, by decide⟩
    · exact hdecimal hc

theorem asString_of_ne {value : Value} (hvalue : ∀ text, value ≠ .string text) : value.asString = none := by
  cases value with
  | string text => exact absurd rfl (hvalue text)
  | number n => rfl
  | null => rfl

/-- The text of a value that is no string. -/
theorem value_text_of_ne {value : Value} (hvalue : ∀ text, value ≠ .string text) :
    '"' ∉ value.text ∧ ∃ c rest, value.text = c :: rest ∧ isSmlSpace c = false ∧ c ≠ '"' := by
  cases value with
  | string text => exact absurd rfl (hvalue text)
  | null => exact ⟨by decide, 'n', "ull".toList, rfl, by decide, by decide⟩
  | number n =>
    refine ⟨fun hmem ↦ (integer_chars n _ hmem).2 rfl, ?_⟩
    have hne : integer n ≠ [] := by
      rcases n with n | n
      · exact decimal_ne_nil n
      · exact List.cons_ne_nil _ _
    obtain ⟨c, rest, hc⟩ := List.exists_cons_of_ne_nil hne
    exact ⟨c, rest, hc, integer_chars n c (hc ▸ List.mem_cons_self)⟩

/-- After the name, the client reads the value. -/
theorem fieldValue_value (compact : Bool) (value : Value) (rest : Text) :
    fieldValue (':' :: (spacing compact ++ (value.text ++ rest))) = value.asString.map decoded := by
  rw [fieldValue, dropWhile_isSmlSpace (by decide)]
  by_cases hvalue : ∃ text, value = .string text
  · obtain ⟨text, rfl⟩ := hvalue
    have htext : (Value.string text).text ++ rest = '"' :: (escape text ++ '"' :: rest) := by
      simp [Value.text, quoted]
    simp only
    rw [htext, dropWhile_spacing (by decide)]
    exact (unescape_escape text rest []).trans (by simp [Value.asString])
  · have hstring : ∀ text, value ≠ .string text := fun text h ↦ hvalue ⟨text, h⟩
    obtain ⟨-, c, tail, hc, hspace, hquote⟩ := value_text_of_ne hstring
    simp only
    rw [hc, List.cons_append, dropWhile_spacing hspace, asString_of_ne hstring]
    split
    · next h => exact absurd (List.cons.inj h).1 hquote
    · rfl

theorem jsonStringField_of_found {name : String} {text rest : Text}
    (h : findSubstring (fieldKey name) text = some (fieldKey name ++ rest)) :
    jsonStringField name text = fieldValue rest := by
  rw [jsonStringField, h]
  simp only [List.drop_left]

theorem jsonStringField_congr {name : String} {text rest : Text}
    (h : findSubstring (fieldKey name) text = findSubstring (fieldKey name) rest) :
    jsonStringField name text = jsonStringField name rest := by
  rw [jsonStringField, jsonStringField, h]

/-- A member with what follows it. -/
theorem jsonStringField_member {name field : String} (hname : FieldName name) (hfield : FieldName field)
    (compact : Bool) (value : Value) {c : Char} (hc : c = ',' ∨ c = '}') (rest : Text) :
    jsonStringField name (memberText compact (field, value) ++ c :: rest) =
      if field = name then value.asString.map decoded
      else if hiddenBy name value then none
      else jsonStringField name (c :: rest) := by
  have hchar : isNameChar c = false ∧ isSmlSpace c = false ∧ c ≠ ':' := by
    rcases hc with rfl | rfl <;> decide
  have htext : memberText compact (field, value) ++ c :: rest =
      quoted field.toList ++ ':' :: (spacing compact ++ (value.text ++ c :: rest)) := by
    simp [memberText]
  have hhides : Hides name field.toList ↔ field = name := by
    rw [Hides, List.suffix_cons_iff, List.cons.injEq]
    constructor
    · rintro (⟨-, h⟩ | h)
      · exact String.toList_injective h.symm
      · exact absurd (hfield.plain _ (h.subset List.mem_cons_self)) (by decide)
    · rintro rfl
      exact .inl ⟨rfl, rfl⟩
  have hsearch := findSubstring_quoted hname (spacing compact ++ (value.text ++ c :: rest))
    (by decide : isNameChar ':' = false) field.toList
  rw [← htext] at hsearch
  by_cases heq : field = name
  · rw [if_pos (hhides.mpr heq)] at hsearch
    rw [if_pos heq, jsonStringField_of_found hsearch, fieldValue_value]
  rw [if_neg (fun h ↦ heq (hhides.mp h))] at hsearch
  have hskip : findSubstring (fieldKey name) (':' :: (spacing compact ++ (value.text ++ c :: rest))) =
      findSubstring (fieldKey name) (value.text ++ c :: rest) := by
    rw [fieldKey, findSubstring_skip (by decide)]
    exact findSubstring_append (by cases compact <;> decide) _
  rw [if_neg heq, jsonStringField_congr (hsearch.trans hskip)]
  by_cases hvalue : ∃ text, value = .string text
  · obtain ⟨text, rfl⟩ := hvalue
    have hquoted := findSubstring_quoted hname rest hchar.1 text
    have hhidden : hiddenBy name (.string text) = true ↔ Hides name text := by
      simp [hiddenBy, Value.asString]
    by_cases hides : Hides name text
    · rw [if_pos hides] at hquoted
      rw [if_pos (hhidden.mpr hides)]
      exact (jsonStringField_of_found hquoted).trans (fieldValue_of_ne hchar.2.1 hchar.2.2 rest)
    · rw [if_neg hides] at hquoted
      rw [if_neg (fun h ↦ hides (hhidden.mp h))]
      exact jsonStringField_congr hquoted
  · have hstring : ∀ text, value ≠ .string text := fun text h ↦ hvalue ⟨text, h⟩
    have hplain : findSubstring (fieldKey name) (value.text ++ c :: rest) =
        findSubstring (fieldKey name) (c :: rest) :=
      findSubstring_append (value_text_of_ne hstring).1 _
    have hhidden : ¬ hiddenBy name value = true := by simp [hiddenBy, asString_of_ne hstring]
    rw [jsonStringField_congr hplain, if_neg hhidden]

theorem findSubstring_eq_none {needle text : Text} {c : Char} (hc : c ∉ text) :
    findSubstring (c :: needle) text = none := by
  have happend : findSubstring (c :: needle) (text ++ []) = findSubstring (c :: needle) [] :=
    findSubstring_append hc []
  rwa [List.append_nil] at happend

/-- The client reads an object's member up to the first string that hides its name. -/
theorem jsonStringField_membersText {name : String} (hname : FieldName name) (compact : Bool) {tail : Text}
    (htail : '"' ∉ tail) {object : Object} (hfields : ∀ member ∈ object, FieldName member.1) :
    jsonStringField name (membersText compact object ++ tail) = readMember name object := by
  have hend : jsonStringField name ('}' :: tail) = none := by
    have hbrace : '"' ∉ '}' :: tail := by simp [htail]
    have hfound : findSubstring (fieldKey name) ('}' :: tail) = none := findSubstring_eq_none hbrace
    rw [jsonStringField, hfound]
  induction object with
  | nil => exact hend
  | cons member rest ih =>
    obtain ⟨field, value⟩ := member
    have hfield := hfields _ List.mem_cons_self
    have hrest := ih fun member hmem ↦ hfields member (List.mem_cons_of_mem _ hmem)
    rcases rest with _ | ⟨next, rest⟩
    · have htext : membersText compact [(field, value)] ++ tail =
          memberText compact (field, value) ++ '}' :: tail := by
        rw [membersText_singleton, List.append_assoc]
        rfl
      rw [htext, jsonStringField_member hname hfield compact value (.inr rfl), hend]
      rfl
    · have htext : membersText compact ((field, value) :: next :: rest) ++ tail =
          memberText compact (field, value) ++
            ',' :: (spacing compact ++ (membersText compact (next :: rest) ++ tail)) := by
        rw [membersText_cons_cons]
        simp
      have hskip : jsonStringField name
          (',' :: (spacing compact ++ (membersText compact (next :: rest) ++ tail))) =
            readMember name (next :: rest) := by
        rw [← hrest]
        refine jsonStringField_congr ?_
        rw [fieldKey, findSubstring_skip (by decide)]
        exact findSubstring_append (by cases compact <;> decide) _
      rw [htext, jsonStringField_member hname hfield compact value (.inl rfl), hskip]
      rfl

/-! ### Which fields are read as they are -/

/-- The client gets a field's string: it knows the escapes in it, and no string before it hides the name. -/
def Reads (name : String) (object : Object) : Prop :=
  ∀ text, stringValue name object = some text → (∀ c ∈ text, isPlain c = true) ∧
    ∀ member ∈ object.takeWhile (fun member ↦ member.1 ≠ name), hiddenBy name member.2 = false

theorem stringValue_cons (name field : String) (value : Value) (rest : Object) :
    stringValue name ((field, value) :: rest) =
      if field = name then value.asString else stringValue name rest := by
  rw [stringValue, List.lookup_cons]
  by_cases hfield : field = name
  · rw [if_pos hfield, hfield, beq_self_eq_true]
    rfl
  · rw [if_neg hfield, beq_false_of_ne (Ne.symm hfield)]
    rfl

theorem reads_cons_of_ne {name field : String} (hne : field ≠ name) (value : Value) (rest : Object) :
    Reads name ((field, value) :: rest) ↔
      Reads name rest ∧ (stringValue name rest ≠ none → hiddenBy name value = false) := by
  rw [Reads, stringValue_cons, if_neg hne, List.takeWhile_cons_of_pos (by simpa using hne)]
  constructor
  · intro h
    refine ⟨fun text htext ↦ ⟨(h text htext).1, fun member hmem ↦ ?_⟩, fun hsome ↦ ?_⟩
    · exact (h text htext).2 member (List.mem_cons_of_mem _ hmem)
    · obtain ⟨text, htext⟩ := Option.ne_none_iff_exists'.mp hsome
      exact (h text htext).2 (field, value) List.mem_cons_self
  · rintro ⟨hrest, hfirst⟩ text htext
    refine ⟨(hrest text htext).1, fun member hmem ↦ ?_⟩
    rcases List.mem_cons.mp hmem with rfl | hmem
    · exact hfirst (by rw [htext]; exact Option.some_ne_none _)
    · exact (hrest text htext).2 member hmem

/-- What the client reads is what the object says exactly if it gets the field. -/
theorem readMember_eq_iff {name : String} {object : Object} :
    readMember name object = stringValue name object ↔ Reads name object := by
  induction object with
  | nil => exact iff_of_true rfl fun text h ↦ nomatch h
  | cons member rest ih =>
    obtain ⟨field, value⟩ := member
    by_cases hfield : field = name
    · rw [readMember, if_pos hfield, Reads, stringValue_cons, if_pos hfield,
        List.takeWhile_cons_of_neg (by simpa using hfield)]
      rcases value.asString with _ | text
      · simp
      · simp [decoded_eq_iff]
    · rw [readMember, if_neg hfield, stringValue_cons, if_neg hfield, reads_cons_of_ne hfield]
      rcases hhidden : hiddenBy name value with _ | _
      · rw [if_neg (by decide), ih]
        exact ⟨fun h ↦ ⟨h, fun _ ↦ rfl⟩, fun h ↦ h.1⟩
      · rw [if_pos rfl]
        constructor
        · intro hnone
          refine ⟨fun text htext ↦ ?_, fun hsome ↦ absurd hnone.symm hsome⟩
          rw [← hnone] at htext
          cases htext
        · rintro ⟨-, hfirst⟩
          by_contra hne
          exact absurd (hfirst (Ne.symm hne)) (by decide)

theorem fieldName_of_all {names : List String}
    (h : ∀ name ∈ names, name.toList ≠ [] ∧ ∀ c ∈ name.toList, isNameChar c = true) :
    ∀ name ∈ names, FieldName name := fun name hmem ↦ ⟨(h name hmem).1, (h name hmem).2⟩

theorem fieldName_of_clientFields : ∀ name ∈ clientFields, FieldName name := fieldName_of_all (by decide)

/-- The members of the object have names that need no escapes. -/
def Named (object : Object) : Prop := ∀ member ∈ object, FieldName member.1

theorem named_of_names {object : Object} (h : ∀ name ∈ object.map Prod.fst, FieldName name) :
    Named object := fun _ hmem ↦ h _ (List.mem_map_of_mem hmem)

theorem named_actionObject (action : ActionStatus) : Named (actionObject action) :=
  named_of_names (fieldName_of_all (by simp only [actionObject, List.map_cons, List.map_nil]; decide))

theorem named_batchObject (state : BatchState) (failure : Option String) : Named (batchObject state failure) :=
  named_of_names (fieldName_of_all (by simp only [batchObject, List.map_cons, List.map_nil]; decide))

/-- The client's search in an object is `readMember`. -/
theorem jsonStringField_dumps {name : String} (hname : FieldName name) (compact : Bool) {object : Object}
    (hobject : Named object) {tail : Text} (htail : '"' ∉ tail) :
    jsonStringField name (dumps compact object ++ tail) = readMember name object := by
  rw [← jsonStringField_membersText hname compact htail hobject]
  exact jsonStringField_congr (findSubstring_skip (by decide) _)

/-- The client gets all that it asks for. -/
def Readable (object : Object) : Prop := ∀ name ∈ clientFields, Reads name object

theorem jsonStringField_iff {object : Object} (hobject : Named object) (compact : Bool) {tail : Text}
    (htail : '"' ∉ tail) :
    (∀ name ∈ clientFields, jsonStringField name (dumps compact object ++ tail) = stringValue name object) ↔
      Readable object := by
  refine forall₂_congr fun name hmem ↦ ?_
  rw [jsonStringField_dumps (fieldName_of_clientFields name hmem) compact hobject htail, readMember_eq_iff]

/-- An object with one string of characters whose escapes the client knows. -/
theorem readable_singleton {field : String} {text : Text} (htext : ∀ c ∈ text, isPlain c = true) :
    Readable [(field, .string text)] := by
  intro name _ value hvalue
  rw [stringValue_cons] at hvalue
  split_ifs at hvalue with hfield
  · obtain rfl := Option.some.inj hvalue
    refine ⟨htext, fun member hmem ↦ ?_⟩
    rw [List.takeWhile_cons_of_neg (by simpa using hfield)] at hmem
    cases hmem
  · cases hvalue

theorem isPlain_uuidText (digit : ℕ → Fin 16) : ∀ c ∈ uuidText digit, isPlain c = true := by
  have hdigit (i : ℕ) : isPlain (Nat.digitChar (digit i)) = true := by
    have hall : ∀ n : Fin 16, isPlain (Nat.digitChar n) = true := by decide
    exact hall (digit i)
  intro c hc
  simp only [uuidText, List.mem_append, List.mem_cons, List.mem_map] at hc
  rcases hc with ⟨i, -, rfl⟩ | rfl | ⟨i, -, rfl⟩ | rfl | ⟨i, -, rfl⟩ | rfl | ⟨i, -, rfl⟩ | rfl | ⟨i, -, rfl⟩
  all_goals first
    | exact hdigit i
    | rfl

theorem isPlain_batchStateText (state : BatchState) : ∀ c ∈ (batchStateText state).toList, isPlain c = true := by
  cases state <;> decide

end Holbuild.Commands
