import Offside.Text.Alphabetic
import Offside.Text.Numeral
import Offside.Token.Fault

/-!
# Token/Cut — the piece a text begins with

Where a line is not at its margin, what comes next depends on the text alone: a blank, a comment, a
line break, or a token.  `cut` takes that piece off the text.  Layout, which does depend on what
came before, is `Token/Scan`.
-/

namespace Offside.Token

/-- A letter or a numeral. -/
def isWordChar (c : Char) : Bool := Text.isAlphabetic c || Text.isNumeral c

/-- White space that separates tokens within a line. -/
def isSpacing (c : Char) : Bool := c == ' ' || c == '\t' || c == '\r' || c == '\u00a0'

/-- What a piece of text is. -/
inductive Piece where
  /-- Nothing that the parser sees. -/
  | skipped
  | lineBreak
  | token (kind : Kind) (lexeme : List Char) (literal : Option Literal)
deriving DecidableEq, Repr

/-- A piece, the characters it takes off the text, and the faults in it, each by its distance from
the first of those characters. -/
structure Cut where
  taken : List Char
  piece : Piece
  faults : List (Nat × LexicalFault)
deriving DecidableEq, Repr

namespace Cut

/-- A token that is its own text. -/
def plain (kind : Kind) (taken : List Char) : Cut := ⟨taken, .token kind taken none, []⟩

/-! ## Comments -/

/-- The text up to the end of the line. -/
def toLineEnd (text : List Char) : List Char := text.takeWhile (· != '\n')

/-! ## Numbers -/

/-- The point and the digits behind it, if `text` begins with a point. -/
def fraction : List Char → List Char
  | '.' :: text => '.' :: text.takeWhile Char.isDigit
  | _ => []

/-- The sign that `text` begins with, if any. -/
def sign : List Char → List Char
  | '+' :: _ => ['+']
  | '-' :: _ => ['-']
  | _ => []

/-- The exponent that `text` begins with, if digits follow its mark and sign. -/
def exponent : List Char → List Char
  | [] => []
  | mark :: text =>
    if mark == 'e' || mark == 'E' then
      match (text.drop (sign text).length).takeWhile Char.isDigit with
      | [] => []
      | digits => mark :: sign text ++ digits
    else []

/-- The number that `text` begins with.  A point without digits is a fault; it is dropped from the
number unless an exponent follows it. -/
def number (text : List Char) : Cut :=
  let whole := text.takeWhile Char.isDigit
  let part := fraction (text.drop whole.length)
  let power := exponent (text.drop (whole.length + part.length))
  let lexeme := if part == ['.'] && power.isEmpty then whole else whole ++ part ++ power
  ⟨whole ++ part ++ power,
    .token .number lexeme (some (.number (String.ofList lexeme))),
    if part == ['.'] then [(whole.length, .missingFraction)] else []⟩

/-! ## Texts -/

/-- The character that an escape stands for, by the character behind the backslash. -/
def escaped? : Char → Option Char
  | 'n' => some '\n'
  | 't' => some '\t'
  | '\\' => some '\\'
  | '\'' => some '\''
  | _ => none

/-- The run of a quoted text: the characters up to and with the closing quote, the value that they
spell, and whether there is a closing quote before the end of the line. -/
structure Quoted where
  taken : List Char
  value : List Char
  closed : Bool
  faults : List (Nat × LexicalFault)
deriving DecidableEq, Repr

namespace Quoted

/-- The run with `taken` and `value` in front, and `faults` before those it has. -/
def behind (taken value : List Char) (faults : List (Nat × LexicalFault)) (q : Quoted) : Quoted :=
  ⟨taken ++ q.taken, value ++ q.value, q.closed, faults ++ q.faults⟩

/-- Reads the run behind an opening quote; `offset` is the distance from that quote. -/
def read (offset : Nat) : List Char → Quoted
  | [] => ⟨[], [], false, []⟩
  | '\'' :: _ => ⟨['\''], [], true, []⟩
  | '\n' :: _ => ⟨[], [], false, []⟩
  | ['\\'] => ⟨['\\'], [], false, []⟩
  | '\\' :: '\n' :: _ => ⟨['\\'], [], false, []⟩
  | '\\' :: c :: text =>
    (read (offset + 2) text).behind ['\\', c] (escaped? c).toList
      (if (escaped? c).isSome then [] else [(offset, .invalidEscape c)])
  | c :: text => (read (offset + 1) text).behind [c] [c] []

end Quoted

/-- The quoted text that `'` followed by `text` begins with.  It does not reach beyond its line. -/
def quoted (text : List Char) : Cut :=
  let run := Quoted.read 1 text
  let taken := '\'' :: run.taken
  if run.closed then
    ⟨taken, .token .text taken (some (.text (String.ofList run.value))), run.faults⟩
  else
    ⟨taken, .skipped, run.faults ++ [(0, .unterminatedText)]⟩

/-! ## Names -/

/-- Whether the text behind a joiner goes on with a word of the same name: one that begins with a
letter and is not reserved. -/
def joins (text : List Char) : Bool :=
  match text.takeWhile isWordChar with
  | [] => false
  | c :: word => Text.isAlphabetic c && (reserved? (c :: word)).isNone

/-- The words that `text` begins with, each joined to the one before it. -/
def joinedWords : List Char → List Char
  | [] => []
  | c :: text =>
    if isWordChar c || (isJoiner c && joins text) then c :: joinedWords text else []

/-- The question mark that `text` begins with, if any. -/
def questionMark : List Char → List Char
  | '?' :: _ => ['?']
  | _ => []

/-- The reserved word or the name that `text` begins with.  Both joiners spell the same name. -/
def name (text : List Char) : Cut :=
  let first := text.takeWhile isWordChar
  match reserved? first with
  | some (kind, literal) => ⟨first, .token kind first literal, []⟩
  | none =>
    let words := joinedWords text
    let taken := words ++ questionMark (text.drop words.length)
    ⟨taken, .token .identifier (taken.map fun c => if c == '\u00a0' then ' ' else c) none, []⟩

/-! ## Symbols -/

/-- The token that a single character is. -/
def symbol? : Char → Option Kind
  | '(' => some (.opening .round)
  | '[' => some (.opening .square)
  | '{' => some (.opening .curly)
  | ')' => some (.closing .round)
  | ']' => some (.closing .square)
  | '}' => some (.closing .curly)
  | ',' => some .comma
  | '.' => some .dot
  | ':' => some .colon
  | '?' => some .question
  | '!' => some .bang
  | '+' => some .plus
  | '-' => some .minus
  | '*' => some .star
  | '/' => some .slash
  | '%' => some .percent
  | '=' => some .equal
  | '<' => some .less
  | '>' => some .greater
  | '≠' => some .notEqual
  | '≤' => some .lessEqual
  | '≥' => some .greaterEqual
  | '∧' => some .and
  | '∨' => some .or
  | '→' => some .arrow
  | _ => none

/-- The token that two characters are together. -/
def pair? : Char → Char → Option Kind
  | '-', '>' => some .arrow
  | '<', '=' => some .lessEqual
  | '>', '=' => some .greaterEqual
  | _, _ => none

/-- The symbol that `c` followed by `text` begins with: the longer one if there are two. -/
def symbol (c : Char) (text : List Char) : Option Cut :=
  match text with
  | d :: _ =>
    match pair? c d with
    | some kind => some (plain kind [c, d])
    | none => (symbol? c).map fun kind => plain kind [c]
  | [] => (symbol? c).map fun kind => plain kind [c]

end Cut

/-- The piece that `c` followed by `text` begins with. -/
def cut (c : Char) (text : List Char) : Cut :=
  if isSpacing c then ⟨[c], .skipped, []⟩
  else if c == '\n' then ⟨[c], .lineBreak, []⟩
  else if c == '#' then ⟨c :: Cut.toLineEnd text, .skipped, []⟩
  else if c == '\'' then Cut.quoted text
  else if c.isDigit then Cut.number (c :: text)
  else match Cut.symbol c text with
    | some found => found
    | none =>
      if Text.isAlphabetic c then Cut.name (c :: text)
      else ⟨[c], .skipped, [(0, .strayCharacter c)]⟩

end Offside.Token
