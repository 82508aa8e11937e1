import Offside.Position

/-!
# Token/Basic — the words of a program

A token is a kind, the text it was read from, the value of that text if it is a literal, and the
place where it begins.  Layout is made of tokens too: line breaks, and the changes of indentation
that open and close blocks.
-/

namespace Offside

/-- The three pairs of brackets. -/
inductive Bracket where
  | round | square | curly
deriving DecidableEq, Repr

namespace Bracket

/-- The character that opens the pair. -/
def opener : Bracket → Char
  | round => '('
  | square => '['
  | curly => '{'

/-- The character that closes the pair. -/
def closer : Bracket → Char
  | round => ')'
  | square => ']'
  | curly => '}'

end Bracket

/-- The words that lead a statement. -/
inductive Keyword where
  | var | «mut» | «let» | call | «if» | elif | «else» | «while» | «break» | «return»
deriving DecidableEq, Repr

namespace Keyword

/-- Every keyword. -/
def all : List Keyword :=
  [.var, .«mut», .«let», .call, .«if», .elif, .«else», .«while», .«break», .«return»]

/-- The word that spells the keyword. -/
def word : Keyword → String
  | .var => "var"
  | .«mut» => "mut"
  | .«let» => "let"
  | .call => "call"
  | .«if» => "if"
  | .elif => "elif"
  | .«else» => "else"
  | .«while» => "while"
  | .«break» => "break"
  | .«return» => "return"

/-- The keyword that `text` spells. -/
def ofWord? (text : String) : Option Keyword := all.find? fun k => k.word == text

theorem word_of_ofWord? {text : String} {k : Keyword} (h : ofWord? text = some k) :
    k.word = text := by
  have := List.find?_some h
  simpa using this

end Keyword

namespace Token

/-- What a token is. -/
inductive Kind where
  | opening (pair : Bracket)
  | closing (pair : Bracket)
  | comma | dot | colon | question | bang
  | plus | minus | star | slash | percent
  | equal | notEqual | less | lessEqual | greater | greaterEqual
  | and | or | arrow
  | identifier | number | text | true | false | null | fn
  /-- A word that leads a statement; scanning alone never finds one. -/
  | keyword (word : Keyword)
  | newline
  /-- A line break inside brackets. -/
  | softNewline
  | indent | dedent
  | eof
deriving DecidableEq, Repr

/-- The value of a literal.  A number keeps its digits, so no precision is lost. -/
inductive Literal where
  | number (digits : String)
  | text (value : String)
  | boolean (value : Bool)
  | null
deriving DecidableEq, Repr

end Token

/-- A word of a program. -/
structure Token where
  kind : Token.Kind
  lexeme : String
  literal : Option Token.Literal
  position : Position
deriving DecidableEq, Repr

namespace Token

/-- How a message names the token: layout has no text of its own, so it is described. -/
def shown (t : Token) : String :=
  match t.kind with
  | .newline => "newline"
  | .softNewline => "line break"
  | .indent => "indent"
  | .dedent => "dedent"
  | .eof => "end of input"
  | _ => t.lexeme

/-- Joins two words of one name. -/
def isJoiner (c : Char) : Bool := c == ' ' || c == '\u00a0'

/-- The words that are never part of a longer name, with what they stand for. -/
def reserved? (word : List Char) : Option (Kind × Option Literal) :=
  if word = ['t', 'r', 'u', 'e'] then some (.true, some (.boolean true))
  else if word = ['f', 'a', 'l', 's', 'e'] then some (.false, some (.boolean false))
  else if word = ['n', 'u', 'l', 'l'] then some (.null, some .null)
  else if word = ['f', 'n'] then some (.fn, none)
  else none

end Token

end Offside
