import Holbuild.Library.Texts

/-!
# The lexical grammar of Standard ML

The items of string and character literals with their escapes, comments with nested brackets, and the
tokens of a source text: identifiers and reserved words, symbols, numbers, punctuation, literals, and what
stands between tokens. `render` writes tokens one after the other, and `Lexical` says that a list of tokens
is how the text it renders to is read: no token is malformed, and an opening parenthesis that is no comment
bracket is not followed by an asterisk.
-/

set_option autoImplicit false
set_option relaxedAutoImplicit false

namespace Holbuild.Library

/-! ### Literals -/

/-- An item between the quotes of a literal: a character, one of the escapes, or a gap. -/
inductive LiteralItem
  | plain (c : Char)
  | simple (c : Char)
  | control (c : Char)
  | code (a b c : Char)
  | unicode (a b c d : Char)
  | gap (first : Char) (blanks : Text)
deriving DecidableEq, Repr

def isHexDigit (c : Char) : Bool :=
  c.isDigit || (decide ('a' ≤ c) && decide (c ≤ 'f')) || (decide ('A' ≤ c) && decide (c ≤ 'F'))

namespace LiteralItem

def valid : LiteralItem → Bool
  | .plain c => decide (32 ≤ c.toNat) && c != '"' && c != '\\'
  | .simple c => c ∈ ['a', 'b', 't', 'n', 'v', 'f', 'r', '\\', '"']
  | .control c => decide (64 ≤ c.toNat) && decide (c.toNat < 96)
  | .code a b c => a.isDigit && b.isDigit && c.isDigit
  | .unicode a b c d => isHexDigit a && isHexDigit b && isHexDigit c && isHexDigit d
  | .gap first blanks => isSmlSpace first && blanks.all isSmlSpace

def text : LiteralItem → Text
  | .plain c => [c]
  | .simple c => ['\\', c]
  | .control c => ['\\', '^', c]
  | .code a b c => ['\\', a, b, c]
  | .unicode a b c d => ['\\', 'u', a, b, c, d]
  | .gap first blanks => '\\' :: first :: (blanks ++ ['\\'])

end LiteralItem

/-- A literal with its quotes. -/
def literalText (items : List LiteralItem) : Text := '"' :: (items.flatMap LiteralItem.text ++ ['"'])

/-! ### Comments -/

/-- What follows inside `depth` comments that are open, to the end of the outermost one. Brackets are read
from left to right. -/
inductive CommentRest : ℕ → Text → Prop
  | last : CommentRest 1 ['*', ')']
  | closes {depth : ℕ} {rest : Text} : CommentRest (depth + 1) rest →
      CommentRest (depth + 2) ('*' :: ')' :: rest)
  | opens {depth : ℕ} {rest : Text} : CommentRest (depth + 2) rest →
      CommentRest (depth + 1) ('(' :: '*' :: rest)
  | char {depth : ℕ} {c : Char} {rest : Text} (hopens : ¬ (c = '(' ∧ rest.head? = some '*'))
      (hcloses : ¬ (c = '*' ∧ rest.head? = some ')')) : CommentRest depth rest →
      CommentRest depth (c :: rest)

/-! ### Tokens -/

/-- A token, or what stands between tokens. The text of a comment is the one after its first bracket, and a
character literal has one item. -/
inductive SmlToken
  | blank (c : Char)
  | comment (rest : Text)
  | string (items : List LiteralItem)
  | char (item : LiteralItem)
  | word (text : Text)
  | number (text : Text)
  | symbolic (text : Text)
  | punctuation (c : Char)
deriving DecidableEq, Repr

def isSymbolic (c : Char) : Bool :=
  c ∈ ['!', '%', '&', '$', '#', '+', '-', '/', ':', '<', '=', '>', '?', '@', '\\', '~', '`', '^', '|', '*']

/-- A letter, a digit, an underscore or a prime. -/
def isIdentifierChar (c : Char) : Bool := c.isAlphanum || c = '_' || c = '\''

namespace SmlToken

def Valid : SmlToken → Prop
  | .blank c => isSmlSpace c = true
  | .comment rest => CommentRest 1 rest
  | .string items => ∀ item ∈ items, item.valid = true
  | .char item => item.valid = true
  | .word text => text ≠ [] ∧ ∀ c ∈ text, isIdentifierChar c = true
  | .number text => text ≠ [] ∧ ∀ c ∈ text, isIdentifierChar c = true ∨ c = '.' ∨ c = '~'
  | .symbolic text => text ≠ [] ∧ ∀ c ∈ text, isSymbolic c = true
  | .punctuation c => c ∈ ['(', ')', '[', ']', '{', '}', ',', ';', '.', '_']

def text : SmlToken → Text
  | .blank c => [c]
  | .comment rest => '(' :: '*' :: rest
  | .string items => literalText items
  | .char item => '#' :: literalText [item]
  | .word text => text
  | .number text => text
  | .symbolic text => text
  | .punctuation c => [c]

/-- The items of the token's literal. -/
def literal : SmlToken → Option (List LiteralItem)
  | .string items => some items
  | .char item => some [item]
  | _ => none

/-- The characters before the token's literal or comment, and the token's literal or comment. -/
def parts : SmlToken → Text × Text
  | .comment rest => ([], '(' :: '*' :: rest)
  | .string items => ([], literalText items)
  | .char item => (['#'], literalText [item])
  | token => (token.text, [])

end SmlToken

/-- The text of tokens. -/
def render (tokens : List SmlToken) : Text := tokens.flatMap SmlToken.text

@[simp] theorem render_nil : render [] = [] := rfl

@[simp] theorem render_cons (token : SmlToken) (rest : List SmlToken) :
    render (token :: rest) = token.text ++ render rest := rfl

/-- The tokens are those that the text they render to is read as. -/
inductive Lexical : List SmlToken → Prop
  | nil : Lexical []
  | cons {token : SmlToken} {rest : List SmlToken} (hvalid : token.Valid)
      (hopens : ¬ (token = .punctuation '(' ∧ (render rest).head? = some '*')) :
      Lexical rest → Lexical (token :: rest)

/-- The places of comments and literals among tokens, from a position on. -/
def tokenSpans : ℕ → List SmlToken → List (ℕ × ℕ)
  | _, [] => []
  | i, token :: rest =>
    let start := i + token.parts.1.length
    let stop := start + token.parts.2.length
    if token.parts.2 = [] then tokenSpans stop rest else (start, stop) :: tokenSpans stop rest

theorem SmlToken.text_eq_parts (token : SmlToken) : token.text = token.parts.1 ++ token.parts.2 := by
  cases token <;> simp [SmlToken.text, SmlToken.parts]

end Holbuild.Library
