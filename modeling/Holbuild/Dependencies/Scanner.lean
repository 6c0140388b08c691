import Holbuild.Analyser.Responses

/-!
# Scanning Standard ML sources

The scanners of `dependencies.sml`, which the analyser has too: string literals, comments, words and
tokens, and the arguments of `load`, `use` and holbuild's own declarations, which are the facts about a
source where there is no HOL toolchain. Positions in a text are the texts from there on.
-/

set_option autoImplicit false
set_option relaxedAutoImplicit false

namespace Holbuild.Dependencies

open Library

/-! ### Characters, strings and comments -/

def isWordStart (c : Char) : Bool := c.isAlpha || c = '_'

def isWordChar (c : Char) : Bool := c.isAlphanum || c = '_' || c = '\''

/-- Reads a string literal after its first quote: a backslash is left out, and the character after it is
taken as it is. -/
def scanString : Text → Text × Text
  | [] => ([], [])
  | '"' :: rest => ([], rest)
  | ['\\'] => ([], [])
  | '\\' :: c :: rest => (c :: (scanString rest).1, (scanString rest).2)
  | c :: rest => (c :: (scanString rest).1, (scanString rest).2)

/-- What follows a comment, inside `depth` comments that are open. -/
def skipComment : ℕ → Text → Text
  | _, [] => []
  | depth, '(' :: '*' :: rest => skipComment (depth + 1) rest
  | depth, '*' :: ')' :: rest => if depth = 1 then rest else skipComment (depth - 1) rest
  | depth, _ :: rest => skipComment depth rest

/-- Reads a word. -/
def scanWord (text : Text) : Text × Text := (text.takeWhile isWordChar, text.dropWhile isWordChar)

/-- The text starts with the opening bracket of a comment. -/
def opensComment (text : Text) : Bool := "(*".toList.isPrefixOf text

/-! ### Tokens -/

inductive Token
  | word (text : Text)
  | stringLit (text : Text)
  | symbol (c : Char)
deriving DecidableEq, Repr

/-- At most `fuel` steps of the tokenizer. -/
def tokenizeFrom : ℕ → Text → List Token
  | 0, _ => []
  | _, [] => []
  | fuel + 1, c :: rest =>
    if isSmlSpace c then tokenizeFrom fuel rest
    else if opensComment (c :: rest) then tokenizeFrom fuel (skipComment 1 (rest.drop 1))
    else if c = '"' then .stringLit (scanString rest).1 :: tokenizeFrom fuel (scanString rest).2
    else if isWordStart c then
      .word (scanWord (c :: rest)).1 :: tokenizeFrom fuel (scanWord (c :: rest)).2
    else .symbol c :: tokenizeFrom fuel rest

/-- The tokens of a text; every step takes a character at least. -/
def tokenize (text : Text) : List Token := tokenizeFrom text.length text

/-! ### Arguments -/

def addUnique (item : String) (items : List String) : List String :=
  if item ∈ items then items else item :: items

/-- The literals after a keyword. -/
def extractStringArgsFrom (keyword : String) : List Token → List String → List String
  | .word word :: .stringLit value :: xs, acc =>
    if word = keyword.toList then extractStringArgsFrom keyword xs (addUnique (String.ofList value) acc)
    else extractStringArgsFrom keyword xs acc
  | _ :: xs, acc => extractStringArgsFrom keyword xs acc
  | [], acc => acc

def extractStringArgs (keyword : String) (tokens : List Token) : List String :=
  extractStringArgsFrom keyword tokens []

/-- The literals of a bracketed list, and the tokens after it. -/
def stringList (keyword : String) : List Token → List String → Except String (List String × List Token)
  | .symbol ']' :: xs, acc => .ok (acc.reverse, xs)
  | .stringLit value :: xs, acc => stringList keyword xs (addUnique (String.ofList value) acc)
  | .symbol ',' :: xs, acc => stringList keyword xs acc
  | _, _ => .error ("expected literal string list after " ++ keyword)

/-- The literals of the lists after a keyword, in at most `fuel` steps. -/
def extractStringListArgsFrom (keyword : String) : ℕ → List Token → List String →
    Except String (List String)
  | 0, _, acc => .ok acc
  | _, [], acc => .ok acc
  | fuel + 1, .word word :: .symbol '[' :: xs, acc =>
    if word = keyword.toList then
      match stringList keyword xs [] with
      | .ok (values, rest) => extractStringListArgsFrom keyword fuel rest (values ++ acc)
      | .error message => .error message
    else extractStringListArgsFrom keyword fuel (.symbol '[' :: xs) acc
  | fuel + 1, _ :: xs, acc => extractStringListArgsFrom keyword fuel xs acc

def extractStringListArgs (keyword : String) (tokens : List Token) : Except String (List String) :=
  extractStringListArgsFrom keyword tokens.length tokens []

/-- `extract_textual` of the text of a source. -/
def extractTextual (text : Text) : Except String Analyser.Deps := do
  let tokens := tokenize text
  let extraDeps ← extractStringListArgs "holbuild_extra_deps" tokens
  let extraOutputs ← extractStringListArgs "holbuild_extra_outputs" tokens
  return ⟨Analyser.sortUnique (extractStringArgs "load" tokens),
    Analyser.sortUnique (extractStringArgs "use" tokens), Analyser.sortUnique extraDeps,
    Analyser.sortUnique extraOutputs, []⟩

end Holbuild.Dependencies
