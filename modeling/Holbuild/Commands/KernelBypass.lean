import Holbuild.Dependencies.Scanner
import Holbuild.Library.SmlLexis
import Mathlib.Data.List.Count

/-!
# The kernel-bypass scan

`check` reports the calls in a theory's sources that can forge a theorem without a trace. The scan blanks
comments and string literals, and looks for the names in what is left. Its scanner takes a backslash in a
literal and the character after it together, whatever the escape is; after a gap, or after `\^\`, it is a
character ahead of the lexical grammar.
-/

set_option autoImplicit false
set_option relaxedAutoImplicit false

namespace Holbuild.Commands

open Library Dependencies

/-! ### The scan -/

def kernelBypassNames : List String :=
  ["disk_thm", "Tag.read_disk_tag", "mk_axiom_thm", "register_replayed_axiom", "upd_binding",
    "incorporate_types", "incorporate_consts", "link_parents", "TheoryReader", "RunCall", "unsafeCast",
    "PolyML.compiler", "PolyML.Compiler", "PolyML.use", "OS.Process.system", "Unix.execute"]

/-- The ranges that are blanked, in at most `fuel` steps of `code`, from a position on. -/
def codeFrom : ℕ → ℕ → Text → List (ℕ × ℕ)
  | 0, _, _ => []
  | _, _, [] => []
  | fuel + 1, i, c :: rest =>
    if opensComment (c :: rest) then
      let stop := i + ((c :: rest).length - (skipComment 1 (rest.drop 1)).length)
      (i, stop) :: codeFrom fuel stop (skipComment 1 (rest.drop 1))
    else if c = '"' then
      let stop := i + ((c :: rest).length - (scanString rest).2.length)
      (i, stop) :: codeFrom fuel stop (scanString rest).2
    else codeFrom fuel (i + 1) rest

/-- The ranges that are blanked in a text that starts at a position; every step takes a character. -/
def codeSpans (i : ℕ) (text : Text) : List (ℕ × ℕ) := codeFrom text.length i text

/-- A range of the text is blanked. -/
def blank (text out : Text) (span : ℕ × ℕ) : Text :=
  out.mapIdx fun i c ↦ if span.1 ≤ i ∧ i < span.2 ∧ text[i]? ≠ some '\n' then ' ' else c

def blankCommentsAndStrings (text : Text) : Text := (codeSpans 0 text).foldl (blank text) text

/-- No word goes on at a position, which may be outside the text. -/
def boundary (code : Text) (i : ℤ) : Bool :=
  i < 0 || code.length ≤ i || !((code[i.toNat]?).any isWordChar)

def nameAt (code : Text) (i : ℕ) (name : Text) : Bool :=
  decide (i + name.length ≤ code.length) && code[i]? == name.head? && boundary code ((i : ℤ) - 1) &&
    boundary code (i + name.length) && (code.drop i).take name.length == name

/-- The uses from a position on, which is where the given rest of the text is. -/
def scan (code : Text) : Text → ℕ → ℕ → List (ℕ × String) → List (ℕ × String)
  | [], _, _, acc => acc.reverse
  | c :: rest, i, line, acc =>
    scan code rest (i + 1) (if c = '\n' then line + 1 else line)
      (kernelBypassNames.foldl
        (fun acc name ↦ if nameAt code i name.toList then (line, name) :: acc else acc) acc)

/-- The kernel-bypass names a source text uses, in order, with their lines. -/
def kernelBypassUses (text : Text) : List (ℕ × String) :=
  scan (blankCommentsAndStrings text) (blankCommentsAndStrings text) 0 1 []

/-! ### What the scan is for -/

/-- A position is in a comment or a literal. -/
def covered (spans : List (ℕ × ℕ)) (i : ℕ) : Bool := spans.any fun span ↦ span.1 ≤ i && i < span.2

/-- No identifier goes on at a position of the text. -/
def separated (text : Text) (i : ℕ) : Bool := !((text[i]?).any isIdentifierChar)

/-- The name stands at a position of the text, outside comments and literals, as an identifier. -/
def Occurs (tokens : List SmlToken) (i : ℕ) (name : Text) : Prop :=
  ((render tokens).drop i).take name.length = name ∧
    (∀ j < name.length, covered (tokenSpans 0 tokens) (i + j) = false) ∧
    (0 < i → separated (render tokens) (i - 1) = true) ∧
    separated (render tokens) (i + name.length) = true

instance (tokens : List SmlToken) (i : ℕ) (name : Text) : Decidable (Occurs tokens i name) :=
  inferInstanceAs (Decidable (_ ∧ _ ∧ _ ∧ _))

/-- The line of a position, from 1. -/
def lineOf (text : Text) (i : ℕ) : ℕ := 1 + (text.take i).count '\n'

/-- The uses of the names in code, in order, with their lines. -/
def bypassUses (tokens : List SmlToken) : List (ℕ × String) :=
  (List.range (render tokens).length).flatMap fun i ↦
    (kernelBypassNames.filter fun name ↦ decide (Occurs tokens i name.toList)).map
      fun name ↦ (lineOf (render tokens) i, name)

/-! ### The scanner on literals -/

theorem scanString_escape (c : Char) (rest : Text) :
    (scanString ('\\' :: c :: rest)).2 = (scanString rest).2 := by
  rw [scanString]

theorem scanString_plain {c : Char} (hquote : c ≠ '"') (hescape : c ≠ '\\') (rest : Text) :
    (scanString (c :: rest)).2 = (scanString rest).2 := by
  rw [scanString] <;> simp_all

theorem scanString_suffix (text : Text) : (scanString text).2 <:+ text := by
  fun_induction scanString text with
  | case1 => exact List.suffix_rfl
  | case2 rest => exact List.suffix_cons _ rest
  | case3 => exact List.nil_suffix
  | case4 c rest ih => exact ih.trans (List.suffix_append ['\\', c] rest)
  | case5 c rest hquote hlast hescape ih => exact ih.trans (List.suffix_cons c rest)

theorem scanString_length_le (text : Text) : (scanString text).2.length ≤ text.length :=
  (scanString_suffix text).length_le

theorem scanString_length_lt {text : Text} (hne : text ≠ []) :
    (scanString text).2.length < text.length := by
  fun_cases scanString text with
  | case1 => exact absurd rfl hne
  | case2 rest => exact Nat.lt_succ_self _
  | case3 => exact Nat.zero_lt_one
  | case4 c rest => exact Nat.lt_add_right 1 (Nat.lt_succ_of_le (scanString_length_le rest))
  | case5 c rest => exact Nat.lt_succ_of_le (scanString_length_le rest)

theorem scanString_blanks {blanks : Text} (hblanks : blanks.all isSmlSpace = true) (rest : Text) :
    (scanString (blanks ++ rest)).2 = (scanString rest).2 := by
  induction blanks with
  | nil => rfl
  | cons c blanks ih =>
    rw [List.all_cons, Bool.and_eq_true] at hblanks
    have hquote : c ≠ '"' := fun h ↦ by rw [h] at hblanks; exact absurd hblanks.1 (by decide)
    have hescape : c ≠ '\\' := fun h ↦ by rw [h] at hblanks; exact absurd hblanks.1 (by decide)
    rw [List.cons_append, scanString_plain hquote hescape, ih hblanks.2]

/-- Whether the scanner takes the last backslash of an item together with the character after it, when it
did so before the item or did not; none if it takes a quote in the item for the end of the literal. -/
def readItem : Bool → LiteralItem → Option Bool
  | _, .gap _ _ => some true
  | _, .control c => some (c = '\\')
  | true, .simple c => if c = '"' then none else some (c = '\\')
  | _, _ => some false

/-- The scanner after the items of a literal. -/
def readItems : Bool → List LiteralItem → Option Bool
  | ahead, [] => some ahead
  | ahead, item :: items => (readItem ahead item).bind fun ahead ↦ readItems ahead items

/-- The scanner finds the end of the literal: it takes none of its quotes for the end before, and the last
backslash not together with the closing quote, unless the text ends with that. -/
def literalInStep (items : List LiteralItem) (last : Bool) : Bool :=
  match readItems false items with
  | some false => true
  | some true => last
  | none => false

/-- What the scanner has before it: with `ahead`, the backslash that it takes with the next character. -/
def pending (ahead : Bool) (text : Text) : Text := if ahead then '\\' :: text else text

theorem plain_of_isHexDigit {c : Char} (h : isHexDigit c = true) : c ≠ '"' ∧ c ≠ '\\' := by
  constructor <;> rintro rfl <;> exact absurd h (by decide)

theorem plain_of_isDigit {c : Char} (h : c.isDigit = true) : c ≠ '"' ∧ c ≠ '\\' := by
  constructor <;> rintro rfl <;> exact absurd h (by decide)

theorem plain_of_isSmlSpace {c : Char} (h : isSmlSpace c = true) : c ≠ '"' ∧ c ≠ '\\' := by
  constructor <;> rintro rfl <;> exact absurd h (by decide)

/-- A character that is no quote is passed, or is the backslash that the scanner takes with the next. -/
theorem scanString_char {c : Char} (hquote : c ≠ '"') (rest : Text) :
    (scanString (c :: rest)).2 = (scanString (pending (decide (c = '\\')) rest)).2 := by
  by_cases hescape : c = '\\'
  · subst hescape
    rfl
  · rw [scanString_plain hquote hescape, pending, if_neg (by simpa using hescape)]

/-- One item: the scanner stands after it, or at its quote. -/
theorem scanString_item {item : LiteralItem} (hvalid : item.valid = true) (ahead : Bool) (rest : Text) :
    (scanString (pending ahead (item.text ++ rest))).2 =
      match readItem ahead item with
      | some ahead => (scanString (pending ahead rest)).2
      | none => rest := by
  cases item with
  | plain c =>
    simp only [LiteralItem.valid, Bool.and_eq_true, bne_iff_ne] at hvalid
    cases ahead
    · exact scanString_plain hvalid.1.2 hvalid.2 rest
    · exact scanString_escape c rest
  | simple c =>
    cases ahead
    · exact scanString_escape c rest
    · -- The item's backslash ends the escape that the scanner has begun.
      rw [pending, if_pos rfl, LiteralItem.text, List.cons_append, scanString_escape]
      by_cases hquote : c = '"'
      · subst hquote
        rfl
      · rw [readItem, if_neg hquote]
        exact scanString_char hquote rest
  | control c =>
    have hquote : c ≠ '"' := by
      rintro rfl
      exact absurd hvalid (by decide)
    cases ahead
    · exact (scanString_escape '^' _).trans (scanString_char hquote rest)
    · exact (scanString_escape '\\' _).trans
        ((scanString_plain (by decide) (by decide) _).trans (scanString_char hquote rest))
  | code a b c =>
    simp only [LiteralItem.valid, Bool.and_eq_true] at hvalid
    obtain ⟨⟨ha, hb⟩, hc⟩ := hvalid
    have hrest : (scanString (b :: c :: rest)).2 = (scanString rest).2 :=
      (scanString_plain (plain_of_isDigit hb).1 (plain_of_isDigit hb).2 _).trans
        (scanString_plain (plain_of_isDigit hc).1 (plain_of_isDigit hc).2 _)
    cases ahead
    · exact (scanString_escape a _).trans hrest
    · exact (scanString_escape '\\' _).trans
        ((scanString_plain (plain_of_isDigit ha).1 (plain_of_isDigit ha).2 _).trans hrest)
  | unicode a b c d =>
    simp only [LiteralItem.valid, Bool.and_eq_true] at hvalid
    obtain ⟨⟨⟨ha, hb⟩, hc⟩, hd⟩ := hvalid
    have hrest : (scanString (a :: b :: c :: d :: rest)).2 = (scanString rest).2 := by
      rw [scanString_plain (plain_of_isHexDigit ha).1 (plain_of_isHexDigit ha).2,
        scanString_plain (plain_of_isHexDigit hb).1 (plain_of_isHexDigit hb).2,
        scanString_plain (plain_of_isHexDigit hc).1 (plain_of_isHexDigit hc).2,
        scanString_plain (plain_of_isHexDigit hd).1 (plain_of_isHexDigit hd).2]
    cases ahead
    · exact (scanString_escape 'u' _).trans hrest
    · exact (scanString_escape '\\' _).trans ((scanString_plain (by decide) (by decide) _).trans hrest)
  | gap first blanks =>
    simp only [LiteralItem.valid, Bool.and_eq_true] at hvalid
    have hrest : (scanString (blanks ++ ['\\'] ++ rest)).2 = (scanString (pending true rest)).2 := by
      rw [List.append_assoc, scanString_blanks hvalid.2]
      rfl
    cases ahead
    · exact (scanString_escape first _).trans hrest
    · exact (scanString_escape '\\' _).trans
        ((scanString_plain (plain_of_isSmlSpace hvalid.1).1 (plain_of_isSmlSpace hvalid.1).2 _).trans hrest)

/-- All items of a literal: the scanner stands after them, or at an earlier quote. -/
theorem scanString_items {items : List LiteralItem} (hvalid : ∀ item ∈ items, item.valid = true)
    (rest : Text) (ahead : Bool) :
    match readItems ahead items with
    | some ahead' => (scanString (pending ahead (items.flatMap LiteralItem.text ++ rest))).2 =
        (scanString (pending ahead' rest)).2
    | none => rest <:+ (scanString (pending ahead (items.flatMap LiteralItem.text ++ rest))).2 := by
  induction items generalizing ahead with
  | nil => rfl
  | cons item items ih =>
    have hitem := scanString_item (hvalid item List.mem_cons_self) ahead
      (items.flatMap LiteralItem.text ++ rest)
    rw [List.flatMap_cons, List.append_assoc, readItems]
    rcases hread : readItem ahead item with _ | ahead'
    · rw [hread] at hitem
      rw [hitem]
      exact List.suffix_append _ _
    · rw [hread] at hitem
      rw [hitem]
      exact ih (fun item hmem ↦ hvalid item (List.mem_cons_of_mem _ hmem)) ahead'

/-- The scanner stops after the literal exactly if it is in step. -/
theorem scanString_literal {items : List LiteralItem} (hvalid : ∀ item ∈ items, item.valid = true)
    (rest : Text) :
    (scanString (items.flatMap LiteralItem.text ++ '"' :: rest)).2 = rest ↔
      literalInStep items rest.isEmpty = true := by
  have hitems := scanString_items hvalid ('"' :: rest) false
  rw [pending, if_neg (by decide)] at hitems
  rw [literalInStep]
  rcases hread : readItems false items with _ | _ | _
  · rw [hread] at hitems
    refine iff_of_false (fun heq ↦ ?_) (by simp)
    have hle := hitems.length_le
    rw [heq, List.length_cons] at hle
    omega
  · rw [hread] at hitems
    exact iff_of_true hitems rfl
  · rw [hread] at hitems
    have hquote : (scanString (pending true ('"' :: rest))).2 = (scanString rest).2 :=
      scanString_escape '"' rest
    rw [hitems, hquote]
    rcases rest with _ | ⟨c, rest⟩
    · exact iff_of_true rfl rfl
    · refine iff_of_false (fun heq ↦ ?_) (by simp)
      have hlt := scanString_length_lt (List.cons_ne_nil c rest)
      rw [heq] at hlt
      exact lt_irrefl _ hlt

/-! ### The scanner on tokens -/

theorem skipComment_length_le (depth : ℕ) (text : Text) : (skipComment depth text).length ≤ text.length := by
  fun_induction skipComment depth text with
  | case1 => exact le_rfl
  | case2 depth rest ih => exact ih.trans (Nat.le_add_right _ 2)
  | case3 rest => exact Nat.le_add_right _ 2
  | case4 depth rest hdepth ih => exact ih.trans (Nat.le_add_right _ 2)
  | case5 depth c rest hopens hcloses ih => exact ih.trans (Nat.le_succ _)

theorem skipComment_char {c : Char} {rest : Text} (hopens : ¬ (c = '(' ∧ rest.head? = some '*'))
    (hcloses : ¬ (c = '*' ∧ rest.head? = some ')')) (depth : ℕ) :
    skipComment depth (c :: rest) = skipComment depth rest := by
  rw [skipComment]
  · rintro tail rfl rfl
    exact hopens ⟨rfl, rfl⟩
  · rintro tail rfl rfl
    exact hcloses ⟨rfl, rfl⟩

/-- The scanner finds the end of a comment. -/
theorem skipComment_commentRest {depth : ℕ} {text : Text} (h : CommentRest depth text) (rest : Text) :
    skipComment depth (text ++ rest) = rest := by
  induction h with
  | last => rfl
  | closes h ih => exact ih
  | opens h ih => exact ih
  | @char depth c text hopens hcloses h ih =>
    have hne : text ≠ [] := by rintro rfl; cases h
    have hhead : (text ++ rest).head? = text.head? := by
      rw [List.head?_append_of_ne_nil _ hne]
    rw [List.cons_append, skipComment_char (by rwa [hhead]) (by rwa [hhead]), ih]

theorem codeFrom_of_length_le : ∀ {n m : ℕ} {text : Text} (i : ℕ), text.length ≤ n → text.length ≤ m →
    codeFrom n i text = codeFrom m i text
  | 0, m, text, i, hn, hm => by
    obtain rfl := List.length_eq_zero_iff.mp (Nat.le_zero.mp hn)
    cases m <;> rfl
  | n + 1, 0, text, i, hn, hm => by
    obtain rfl := List.length_eq_zero_iff.mp (Nat.le_zero.mp hm)
    rfl
  | n + 1, m + 1, [], i, hn, hm => rfl
  | n + 1, m + 1, c :: rest, i, hn, hm => by
    rw [List.length_cons] at hn hm
    have hcomment := skipComment_length_le 1 (rest.drop 1)
    have hstring := scanString_length_le rest
    rw [List.length_drop] at hcomment
    simp only [codeFrom]
    rw [codeFrom_of_length_le _ (by omega : (skipComment 1 (rest.drop 1)).length ≤ n)
        (by omega : (skipComment 1 (rest.drop 1)).length ≤ m),
      codeFrom_of_length_le _ (by omega : (scanString rest).2.length ≤ n)
        (by omega : (scanString rest).2.length ≤ m),
      codeFrom_of_length_le _ (by omega : rest.length ≤ n) (by omega : rest.length ≤ m)]

theorem codeSpans_comment (i : ℕ) (rest : Text) :
    codeSpans i ('(' :: '*' :: rest) =
      (i, i + (rest.length + 2 - (skipComment 1 rest).length)) ::
        codeSpans (i + (rest.length + 2 - (skipComment 1 rest).length)) (skipComment 1 rest) := by
  rw [codeSpans, List.length_cons, codeFrom, if_pos (by rfl)]
  have hle := skipComment_length_le 1 rest
  simp only [List.drop_succ_cons, List.drop_zero, List.length_cons]
  rw [codeFrom_of_length_le _ (by omega) le_rfl]
  rfl

theorem codeSpans_literal (i : ℕ) (rest : Text) :
    codeSpans i ('"' :: rest) =
      (i, i + (rest.length + 1 - (scanString rest).2.length)) ::
        codeSpans (i + (rest.length + 1 - (scanString rest).2.length)) (scanString rest).2 := by
  have hle := scanString_length_le rest
  rw [codeSpans, List.length_cons, codeFrom, if_neg (by simp [opensComment]), if_pos rfl]
  simp only [List.length_cons]
  rw [codeFrom_of_length_le _ hle le_rfl]
  rfl

theorem codeSpans_code {c : Char} {rest : Text} (i : ℕ) (hquote : c ≠ '"')
    (hopens : ¬ (c = '(' ∧ rest.head? = some '*')) :
    codeSpans i (c :: rest) = codeSpans (i + 1) rest := by
  have hcomment : ¬ opensComment (c :: rest) = true := by
    intro h
    obtain ⟨tail, htail⟩ := List.isPrefixOf_iff_prefix.mp h
    obtain ⟨rfl, rfl⟩ := List.cons.inj htail
    exact hopens ⟨rfl, rfl⟩
  rw [codeSpans, List.length_cons, codeFrom, if_neg hcomment, if_neg hquote]
  rfl

theorem codeSpans_append {text : Text} (hcode : ∀ c ∈ text, c ≠ '"' ∧ c ≠ '(') (i : ℕ) (rest : Text) :
    codeSpans i (text ++ rest) = codeSpans (i + text.length) rest := by
  induction text generalizing i with
  | nil => rfl
  | cons c text ih =>
    have hc := hcode c List.mem_cons_self
    rw [List.cons_append, codeSpans_code i hc.1 (fun h ↦ hc.2 h.1),
      ih (fun d hd ↦ hcode d (List.mem_cons_of_mem _ hd)), List.length_cons]
    congr 1
    omega

/-- Every literal's end is found. -/
def InStep : List SmlToken → Prop
  | [] => True
  | token :: rest =>
    (∀ items, token.literal = some items → literalInStep items (render rest).isEmpty = true) ∧ InStep rest

theorem codeSpans_literal_iff {items : List LiteralItem} (hvalid : ∀ item ∈ items, item.valid = true)
    (i : ℕ) (rest : Text) (spans : List (ℕ × ℕ)) :
    codeSpans i (literalText items ++ rest) = (i, i + (literalText items).length) :: spans ↔
      literalInStep items rest.isEmpty = true ∧ codeSpans (i + (literalText items).length) rest = spans := by
  have hstop := scanString_literal hvalid rest
  have htext : literalText items ++ rest =
      '"' :: (items.flatMap LiteralItem.text ++ '"' :: rest) := by
    simp [literalText]
  have hlength : (literalText items).length + rest.length =
      (items.flatMap LiteralItem.text ++ '"' :: rest).length + 1 := by
    rw [← List.length_append, htext, List.length_cons]
  rw [htext, codeSpans_literal, List.cons.injEq, Prod.mk.injEq, ← hstop]
  constructor
  · rintro ⟨⟨-, hspan⟩, htail⟩
    have hle := scanString_length_le (items.flatMap LiteralItem.text ++ '"' :: rest)
    have hpos : 0 < (literalText items).length := by simp [literalText]
    have hrest : (scanString (items.flatMap LiteralItem.text ++ '"' :: rest)).2.length = rest.length := by
      omega
    have heq : (scanString (items.flatMap LiteralItem.text ++ '"' :: rest)).2 = rest :=
      (List.suffix_of_suffix_length_le (scanString_suffix _)
        ((List.suffix_cons '"' rest).trans (List.suffix_append _ _)) hrest.le).eq_of_length hrest
    rw [hspan, heq] at htail
    exact ⟨heq, htail⟩
  · rintro ⟨hrest, htail⟩
    have hspan : (items.flatMap LiteralItem.text ++ '"' :: rest).length + 1 - rest.length =
        (literalText items).length := by omega
    rw [hrest, hspan]
    exact ⟨⟨rfl, rfl⟩, htail⟩

/-- A token that is no literal, comment or opening parenthesis has no quote or opening parenthesis. -/
theorem plain_of_valid {token : SmlToken} (hvalid : token.Valid) (hspan : token.parts.2 = [])
    (hparen : token ≠ .punctuation '(') : ∀ c ∈ token.text, c ≠ '"' ∧ c ≠ '(' := by
  intro c hc
  cases token with
  | blank d =>
    obtain rfl := List.mem_singleton.mp hc
    have hspace : isSmlSpace c = true := hvalid
    constructor <;> rintro rfl <;> exact absurd hspace (by decide)
  | comment rest => exact absurd hspan (List.cons_ne_nil _ _)
  | string items => exact absurd hspan (List.cons_ne_nil _ _)
  | char item => exact absurd hspan (List.cons_ne_nil _ _)
  | word text =>
    have hword : isIdentifierChar c = true := hvalid.2 c hc
    constructor <;> rintro rfl <;> exact absurd hword (by decide)
  | number text =>
    have hnumber : isIdentifierChar c = true ∨ c = '.' ∨ c = '~' := hvalid.2 c hc
    constructor <;> rintro rfl <;> exact absurd hnumber (by decide)
  | symbolic text =>
    have hsymbolic : isSymbolic c = true := hvalid.2 c hc
    constructor <;> rintro rfl <;> exact absurd hsymbolic (by decide)
  | punctuation d =>
    obtain rfl := List.mem_singleton.mp hc
    refine ⟨?_, fun h ↦ hparen (h ▸ rfl)⟩
    rintro rfl
    simp [SmlToken.Valid] at hvalid

/-- The ranges are those of the comments and literals exactly if every literal's end is found. -/
theorem codeSpans_render {tokens : List SmlToken} (h : Lexical tokens) (i : ℕ) :
    codeSpans i (render tokens) = tokenSpans i tokens ↔ InStep tokens := by
  induction h generalizing i with
  | nil => exact iff_of_true rfl trivial
  | @cons token rest hvalid hopens h ih =>
    by_cases hspan : token.parts.2 = []
    · -- A token that is code moves the scanner and the grammar on by its length.
      have htext : token.text = token.parts.1 := by rw [token.text_eq_parts, hspan, List.append_nil]
      have hcode : codeSpans i (token.text ++ render rest) =
          codeSpans (i + token.text.length) (render rest) := by
        by_cases hparen : token = .punctuation '('
        · subst hparen
          exact codeSpans_code i (by decide) (fun hstar ↦ hopens ⟨rfl, hstar.2⟩)
        · exact codeSpans_append (plain_of_valid hvalid hspan hparen) i (render rest)
      have hliteral : ∀ items, token.literal = some items →
          literalInStep items (render rest).isEmpty = true := by
        intro items hitems
        cases token <;> simp [SmlToken.literal, SmlToken.parts, literalText] at hitems hspan
      rw [render_cons, hcode, tokenSpans, if_pos hspan, hspan, htext, List.length_nil, Nat.add_zero, ih,
        InStep]
      exact ⟨fun hrest ↦ ⟨hliteral, hrest⟩, fun hstep ↦ hstep.2⟩
    · rw [render_cons, tokenSpans, if_neg hspan]
      cases token with
      | comment text =>
        have hskip := skipComment_commentRest hvalid (render rest)
        have hlength : (text ++ render rest).length + 2 - (render rest).length =
            ('(' :: '*' :: text).length := by
          simp only [List.length_append, List.length_cons]
          omega
        have hspans : codeSpans i ((SmlToken.comment text).text ++ render rest) =
            (i, i + ('(' :: '*' :: text).length) ::
              codeSpans (i + ('(' :: '*' :: text).length) (render rest) := by
          refine (codeSpans_comment i (text ++ render rest)).trans ?_
          rw [hskip, hlength]
        rw [hspans, InStep]
        simp only [SmlToken.parts, SmlToken.literal, List.length_nil, Nat.add_zero, List.cons.injEq,
          true_and, reduceCtorEq, false_implies, implies_true]
        exact ih _
      | string items =>
        rw [InStep]
        simp only [SmlToken.parts, SmlToken.literal, SmlToken.text, List.length_nil, Nat.add_zero,
          Option.some.injEq, forall_eq']
        rw [codeSpans_literal_iff hvalid, ih]
      | char item =>
        have hitem : ∀ d ∈ [item], d.valid = true := by
          intro d hd
          rw [List.mem_singleton.mp hd]
          exact hvalid
        have hspans : codeSpans i ((SmlToken.char item).text ++ render rest) =
            codeSpans (i + 1) (literalText [item] ++ render rest) :=
          codeSpans_code i (by decide) (by simp)
        rw [InStep, hspans]
        simp only [SmlToken.parts, SmlToken.literal, List.length_singleton, Option.some.injEq, forall_eq']
        rw [codeSpans_literal_iff hitem, ih]
      | _ => exact absurd rfl hspan

/-! ### The blanked text -/

theorem getElem?_foldl_blank (text : Text) (spans : List (ℕ × ℕ)) (out : Text) (i : ℕ) :
    (spans.foldl (blank text) out)[i]? =
      (out[i]?).map fun c ↦ if covered spans i = true ∧ text[i]? ≠ some '\n' then ' ' else c := by
  induction spans generalizing out with
  | nil => simp [covered]
  | cons span spans ih =>
    rw [List.foldl_cons, ih, blank, List.getElem?_mapIdx, Option.map_map]
    congr 1
    funext c
    simp only [Function.comp_apply, covered, List.any_cons, Bool.or_eq_true, Bool.and_eq_true,
      decide_eq_true_eq]
    by_cases hspans : spans.any (fun span ↦ decide (span.1 ≤ i) && decide (i < span.2)) = true
    · by_cases hnewline : text[i]? = some '\n' <;> simp [hspans, hnewline]
    · simp [hspans, and_assoc]

theorem getElem?_blank (text : Text) (i : ℕ) :
    (blankCommentsAndStrings text)[i]? = (text[i]?).map fun c ↦
      if covered (codeSpans 0 text) i = true ∧ c ≠ '\n' then ' ' else c := by
  rw [blankCommentsAndStrings, getElem?_foldl_blank]
  rcases text[i]? with _ | c
  · rfl
  · simp only [Option.map_some, ne_eq, Option.some.injEq]

theorem length_blank (text : Text) : (blankCommentsAndStrings text).length = text.length := by
  rw [blankCommentsAndStrings]
  induction codeSpans 0 text using List.reverseRecOn with
  | nil => rfl
  | append_singleton spans span ih =>
    rw [List.foldl_append, List.foldl_cons, List.foldl_nil, blank, List.length_mapIdx, ih]

/-- Lines are kept. -/
theorem lineOf_blank (text : Text) (i : ℕ) : lineOf (blankCommentsAndStrings text) i = lineOf text i := by
  have hmap : (blankCommentsAndStrings text).map (· == '\n') = text.map (· == '\n') := by
    refine List.ext_getElem? fun j ↦ ?_
    rw [List.getElem?_map, List.getElem?_map, getElem?_blank, Option.map_map]
    congr 1
    funext c
    by_cases hc : c = '\n'
    · simp [hc]
    · by_cases hcovered : covered (codeSpans 0 text) j = true <;> simp [hc, hcovered]
  have hcount (code : Text) : (code.take i).count '\n' = ((code.map (· == '\n')).take i).count true := by
    rw [← List.map_take, List.count_eq_countP, List.count_eq_countP, List.countP_map]
    congr 1
    funext c
    simp
  rw [lineOf, lineOf, hcount, hcount, hmap]

/-- The scan goes through the positions, with their lines. -/
theorem scan_eq (code : Text) : ∀ (rest before : Text) (acc : List (ℕ × String)), code = before ++ rest →
    scan code rest before.length (lineOf code before.length) acc =
      acc.reverse ++ (List.range' before.length rest.length).flatMap fun i ↦
        (kernelBypassNames.filter fun name ↦ nameAt code i name.toList).map fun name ↦ (lineOf code i, name)
  | [], before, acc, hcode => by simp [scan]
  | c :: rest, before, acc, hcode => by
    have hline : (if c = '\n' then lineOf code before.length + 1 else lineOf code before.length) =
        lineOf code (before ++ [c]).length := by
      have htake : (before ++ c :: rest).take (before ++ [c]).length = before ++ [c] := by
        rw [show before ++ c :: rest = (before ++ [c]) ++ rest by simp, List.take_left]
      rw [lineOf, lineOf, hcode, List.take_left, htake, List.count_append]
      by_cases hc : c = '\n' <;> simp [hc, Nat.add_assoc]
    have hstep := scan_eq code rest (before ++ [c])
      (kernelBypassNames.foldl (fun acc name ↦
        if nameAt code before.length name.toList then (lineOf code before.length, name) :: acc else acc) acc)
      (by rw [hcode, List.append_assoc]; rfl)
    rw [scan, hline]
    rw [List.length_append, List.length_singleton] at hstep ⊢
    rw [hstep, ← List.foldl_filter, List.foldl_flip_cons_eq_append, List.length_cons, List.range'_succ,
      List.flatMap_cons, List.reverse_append, List.reverse_reverse, List.append_assoc]

/-! ### The edges of comments and literals -/

/-- A comment or literal starts and ends with a character that no identifier has. -/
theorem edges_of_valid {token : SmlToken} (hvalid : token.Valid) (hspan : token.parts.2 ≠ []) :
    (token.parts.2.head?).any isIdentifierChar = false ∧
      (token.parts.2.getLast?).any isIdentifierChar = false := by
  have hliteral (items : List LiteralItem) : ((literalText items).head?).any isIdentifierChar = false ∧
      ((literalText items).getLast?).any isIdentifierChar = false := by
    constructor
    · rfl
    · rw [literalText, ← List.cons_append, List.getLast?_concat]
      rfl
  have hcomment {depth : ℕ} {text : Text} (h : CommentRest depth text) : text.getLast? = some ')' := by
    induction h with
    | last => rfl
    | closes h ih => rw [List.getLast?_cons, List.getLast?_cons, ih]; rfl
    | opens h ih => rw [List.getLast?_cons, List.getLast?_cons, ih]; rfl
    | char hopens hcloses h ih => rw [List.getLast?_cons, ih]; rfl
  cases token with
  | comment text =>
    refine ⟨rfl, ?_⟩
    have hlast : ('(' :: '*' :: text).getLast? = some ')' := by
      rw [List.getLast?_cons, List.getLast?_cons, hcomment hvalid]
      rfl
    rw [SmlToken.parts, hlast]
    rfl
  | string items => exact hliteral items
  | char item => exact hliteral [item]
  | _ => exact absurd rfl hspan

theorem separated_of_tokenSpans {tokens : List SmlToken} (h : Lexical tokens) : ∀ (before : Text)
    (span : ℕ × ℕ), span ∈ tokenSpans before.length tokens →
      separated (before ++ render tokens) span.1 = true ∧
        separated (before ++ render tokens) (span.2 - 1) = true := by
  induction h with
  | nil => exact fun before span hmem ↦ nomatch hmem
  | @cons token rest hvalid hopens h ih =>
    intro before span hmem
    have htext := token.text_eq_parts
    have hrest := ih (before ++ token.text) span
    rw [List.length_append, htext, List.length_append, ← Nat.add_assoc, List.append_assoc, ← htext] at hrest
    rw [tokenSpans] at hmem
    by_cases hspan : token.parts.2 = []
    · rw [if_pos hspan] at hmem
      exact hrest hmem
    rw [if_neg hspan, List.mem_cons] at hmem
    rcases hmem with rfl | hmem
    · have hedges := edges_of_valid hvalid hspan
      have hpos := List.length_pos_iff.mpr hspan
      have hat : ∀ j < token.parts.2.length,
          (before ++ render (token :: rest))[before.length + token.parts.1.length + j]? =
            token.parts.2[j]? := by
        intro j hj
        rw [render_cons, htext, List.append_assoc, Nat.add_assoc,
          List.getElem?_append_right (Nat.le_add_right _ _), Nat.add_sub_cancel_left,
          List.getElem?_append_right (Nat.le_add_right _ _), Nat.add_sub_cancel_left,
          List.getElem?_append_left hj]
      constructor
      · have hfirst := hat 0 hpos
        rw [Nat.add_zero, ← List.head?_eq_getElem?] at hfirst
        rw [separated, hfirst, hedges.1]
        rfl
      · have hlast := hat (token.parts.2.length - 1) (by omega)
        rw [← List.getLast?_eq_getElem?, ← Nat.add_sub_assoc hpos] at hlast
        rw [separated, hlast, hedges.2]
        rfl
    · exact hrest hmem

/-- A character next to a comment or a literal, on either side of its edge, does not make an identifier go
on across the edge. -/
theorem separated_of_edge {tokens : List SmlToken} (h : Lexical tokens) {i : ℕ} :
    (covered (tokenSpans 0 tokens) i = true → covered (tokenSpans 0 tokens) (i + 1) = false →
      separated (render tokens) i = true) ∧
    (covered (tokenSpans 0 tokens) i = false → covered (tokenSpans 0 tokens) (i + 1) = true →
      separated (render tokens) (i + 1) = true) := by
  have hedges := separated_of_tokenSpans h []
  simp only [List.length_nil, List.nil_append] at hedges
  simp only [covered, List.any_eq_true, List.any_eq_false, Bool.and_eq_true, decide_eq_true_eq]
  constructor
  · rintro ⟨span, hmem, hstart, hstop⟩ hnext
    have hout := hnext span hmem
    have hend : i = span.2 - 1 := by omega
    rw [hend]
    exact (hedges span hmem).2
  · rintro hprev ⟨span, hmem, hstart, hstop⟩
    have hout := hprev span hmem
    have hbegin : i + 1 = span.1 := by omega
    rw [hbegin]
    exact (hedges span hmem).1

/-! ### The uses -/

theorem boundary_natCast (code : Text) (i : ℕ) : boundary code i = separated code i := by
  have hpos : ¬ ((i : ℤ) < 0) := by omega
  rw [boundary, separated, Int.toNat_natCast, decide_eq_false hpos, Bool.false_or]
  by_cases hend : code.length ≤ i
  · rw [List.getElem?_eq_none hend]
    simp
  · have hlt : ¬ ((code.length : ℤ) ≤ i) := by omega
    rw [decide_eq_false hlt, Bool.false_or]
    rfl

theorem take_drop_eq_iff {text name : Text} {i : ℕ} :
    (text.drop i).take name.length = name ↔ ∀ j < name.length, text[i + j]? = name[j]? := by
  constructor
  · intro h j hj
    rw [← h, List.getElem?_take_of_lt hj, List.getElem?_drop]
  · intro h
    refine List.ext_getElem? fun j ↦ ?_
    by_cases hj : j < name.length
    · rw [List.getElem?_take_of_lt hj, List.getElem?_drop, h j hj]
    · rw [List.getElem?_eq_none (by rw [List.length_take]; omega), List.getElem?_eq_none (by omega)]

theorem nameAt_iff {code name : Text} {i : ℕ} (hne : name ≠ []) :
    nameAt code i name = true ↔ (code.drop i).take name.length = name ∧
      (0 < i → separated code (i - 1) = true) ∧ separated code (i + name.length) = true := by
  have hlast : boundary code (i + name.length) = separated code (i + name.length) := by
    rw [← boundary_natCast, Int.natCast_add]
  have hfirst : boundary code ((i : ℤ) - 1) = true ↔ (0 < i → separated code (i - 1) = true) := by
    rcases i with _ | i
    · exact iff_of_true rfl (fun h ↦ absurd h (lt_irrefl 0))
    · rw [Int.natCast_succ, Int.add_sub_cancel, boundary_natCast, Nat.add_sub_cancel]
      exact ⟨fun h _ ↦ h, fun h ↦ h (Nat.succ_pos i)⟩
  simp only [nameAt, Bool.and_eq_true, decide_eq_true_eq, beq_iff_eq, hfirst, hlast]
  constructor
  · rintro ⟨⟨⟨⟨hlength, hhead⟩, hbefore⟩, hafter⟩, htake⟩
    exact ⟨htake, hbefore, hafter⟩
  · rintro ⟨htake, hbefore, hafter⟩
    have hpos := List.length_pos_iff.mpr hne
    have hat := take_drop_eq_iff.mp htake
    refine ⟨⟨⟨⟨?_, ?_⟩, hbefore⟩, hafter⟩, htake⟩
    · by_contra hlong
      have hend := hat (name.length - 1) (by omega)
      rw [List.getElem?_eq_none (by omega), eq_comm, List.getElem?_eq_none_iff] at hend
      omega
    · rw [List.head?_eq_getElem?, ← hat 0 hpos, Nat.add_zero]

theorem getElem?_blank_of_code {text : Text} {i : ℕ} (hcode : covered (codeSpans 0 text) i = false) :
    (blankCommentsAndStrings text)[i]? = text[i]? := by
  rw [getElem?_blank, hcode]
  rcases text[i]? with _ | c
  · rfl
  · simp

theorem getElem?_blank_of_covered {text : Text} {i : ℕ} {c : Char}
    (hcovered : covered (codeSpans 0 text) i = true)
    (hc : (blankCommentsAndStrings text)[i]? = some c) : c = ' ' ∨ c = '\n' := by
  rw [getElem?_blank, hcovered, Option.map_eq_some_iff] at hc
  obtain ⟨d, -, rfl⟩ := hc
  by_cases hd : d = '\n' <;> simp [hd]

theorem separated_blank {tokens : List SmlToken}
    (hspans : codeSpans 0 (render tokens) = tokenSpans 0 tokens) {i : ℕ}
    (hedge : covered (tokenSpans 0 tokens) i = true → separated (render tokens) i = true) :
    separated (blankCommentsAndStrings (render tokens)) i = separated (render tokens) i := by
  rcases hcovered : covered (tokenSpans 0 tokens) i with _ | _
  · rw [separated, getElem?_blank_of_code (by rw [hspans, hcovered]), separated]
  · rw [hedge hcovered, separated]
    rcases hc : (blankCommentsAndStrings (render tokens))[i]? with _ | c
    · rfl
    · rcases getElem?_blank_of_covered (by rw [hspans, hcovered]) hc with rfl | rfl <;> decide

/-- A name of code stands in the blanked text where it stands in code. -/
theorem nameAt_blank {tokens : List SmlToken} (h : Lexical tokens)
    (hspans : codeSpans 0 (render tokens) = tokenSpans 0 tokens) {name : Text} (hne : name ≠ [])
    (hname : ∀ c ∈ name, c ≠ ' ' ∧ c ≠ '\n') (i : ℕ) :
    nameAt (blankCommentsAndStrings (render tokens)) i name = true ↔ Occurs tokens i name := by
  have hpos := List.length_pos_iff.mpr hne
  have hat : ((blankCommentsAndStrings (render tokens)).drop i).take name.length = name ↔
      ((render tokens).drop i).take name.length = name ∧
        ∀ j < name.length, covered (tokenSpans 0 tokens) (i + j) = false := by
    rw [take_drop_eq_iff, take_drop_eq_iff]
    constructor
    · intro h
      have hcode : ∀ j < name.length, covered (tokenSpans 0 tokens) (i + j) = false := by
        intro j hj
        rw [Bool.eq_false_iff]
        intro hcovered
        have hc := h j hj
        rw [List.getElem?_eq_getElem hj] at hc
        have hplain := hname _ (List.getElem_mem hj)
        rcases getElem?_blank_of_covered (by rw [hspans, hcovered]) hc with hspace | hspace
        · exact hplain.1 hspace
        · exact hplain.2 hspace
      refine ⟨fun j hj ↦ ?_, hcode⟩
      rw [← getElem?_blank_of_code (by rw [hspans, hcode j hj]), h j hj]
    · rintro ⟨h, hcode⟩ j hj
      rw [getElem?_blank_of_code (by rw [hspans, hcode j hj]), h j hj]
  rw [nameAt_iff hne, hat, Occurs, and_assoc]
  refine and_congr_right fun _ ↦ and_congr_right fun hcode ↦ and_congr ?_ ?_
  · refine imp_congr_right fun hi ↦ ?_
    rw [separated_blank hspans fun hcovered ↦ (separated_of_edge h).1 hcovered ?_]
    have hfirst := hcode 0 hpos
    rwa [Nat.sub_add_cancel hi]
  · rw [separated_blank hspans fun hcovered ↦ ?_]
    have hlast := hcode (name.length - 1) (by omega)
    have hnext : i + (name.length - 1) + 1 = i + name.length := by omega
    have hedge := (separated_of_edge h).2 hlast
    rw [hnext] at hedge
    exact hedge hcovered

theorem plain_of_kernelBypassNames : ∀ name ∈ kernelBypassNames,
    name.toList ≠ [] ∧ ∀ c ∈ name.toList, c ≠ ' ' ∧ c ≠ '\n' := by
  decide +kernel

theorem kernelBypassUses_of_spans {tokens : List SmlToken} (h : Lexical tokens)
    (hspans : codeSpans 0 (render tokens) = tokenSpans 0 tokens) :
    kernelBypassUses (render tokens) = bypassUses tokens := by
  have hscan := scan_eq (blankCommentsAndStrings (render tokens)) (blankCommentsAndStrings (render tokens))
    [] [] rfl
  rw [List.length_nil, List.reverse_nil, List.nil_append, length_blank, ← List.range_eq_range'] at hscan
  refine hscan.trans (List.flatMap_congr fun i _ ↦ ?_)
  rw [lineOf_blank]
  congr 1
  refine List.filter_congr fun name hmem ↦ ?_
  obtain ⟨hne, hplain⟩ := plain_of_kernelBypassNames name hmem
  rw [Bool.eq_iff_iff, decide_eq_true_eq, nameAt_blank h hspans hne hplain]

/-- The scanner keeps in step with the lexical grammar, and then the scan finds the uses of the names in
code, exactly if the end of every literal is found. -/
theorem kernelBypassUses_iff {tokens : List SmlToken} (h : Lexical tokens) :
    codeSpans 0 (render tokens) = tokenSpans 0 tokens ∧
      kernelBypassUses (render tokens) = bypassUses tokens ↔ InStep tokens := by
  rw [← codeSpans_render h 0]
  exact ⟨fun hboth ↦ hboth.1, fun hspans ↦ ⟨hspans, kernelBypassUses_of_spans h hspans⟩⟩

/-- A literal with an escaped quote and with a gap that a character follows, and a nested comment. -/
theorem kernelBypassUses_iff_gap :
    let tokens : List SmlToken :=
      [.string [.simple '"', .gap '\n' [' '], .plain 'a'], .comment "(*a*)*)".toList, .blank '\n',
        .word "disk_thm".toList]
    codeSpans 0 (render tokens) = tokenSpans 0 tokens ∧
      kernelBypassUses (render tokens) = bypassUses tokens := by
  refine (kernelBypassUses_iff ?_).mpr ⟨?_, ?_, ?_, ?_, trivial⟩
  · refine .cons (by unfold SmlToken.Valid; decide) (by decide)
      (.cons (.opens (.char (by decide) (by decide) (.closes .last))) (by decide)
        (.cons rfl (by decide) (.cons (by unfold SmlToken.Valid; decide) (by decide) .nil)))
  · rintro items ⟨⟩
    decide
  all_goals exact fun items hitems ↦ nomatch hitems

/-- After a gap, the scanner takes the closing quote of the literal for an escaped one, and the rest of the
text for the literal. -/
theorem gap_hides_use :
    let tokens : List SmlToken :=
      [.word "val".toList, .blank ' ', .word "s".toList, .symbolic ['='],
        .string [.plain 'a', .gap '\n' [' ']], .blank '\n', .word "val".toList, .blank ' ',
        .word "f".toList, .symbolic ['='], .word "RunCall".toList]
    Lexical tokens ∧ bypassUses tokens = [(3, "RunCall")] ∧ kernelBypassUses (render tokens) = [] ∧
      codeSpans 0 (render tokens) ≠ tokenSpans 0 tokens := by
  refine ⟨?_, by decide +kernel, by decide +kernel, by decide +kernel⟩
  repeat' first
    | exact Lexical.nil
    | refine Lexical.cons (by unfold SmlToken.Valid; decide) (by decide) ?_

end Holbuild.Commands
