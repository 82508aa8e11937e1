import Offside.Token.Cut

/-!
# Token/Scan — a source text as tokens

Scanning walks over the text once and always reaches its end: faults are collected on the way.
Besides the pieces of `Token/Cut` it keeps what layout depends on: the brackets that are open, the
indentation levels that are open, and the character that indentation is made of.  A line break ends
a statement unless a bracket is open, and the margin of the line behind it then opens or closes
blocks; lines that hold nothing but a comment have no margin.
-/

namespace Offside.Token

/-- A scan under way.  Lists have their newest entry first. -/
structure Scan where
  /-- The text that is left. -/
  rest : List Char
  /-- Where it begins. -/
  position : Position
  /-- Whether it begins with the margin of a line. -/
  atMargin : Bool
  tokens : List Token
  /-- The open brackets, innermost first, with their places. -/
  brackets : List (Bracket × Position)
  /-- The widths of the open blocks, innermost first. -/
  levels : List Nat
  /-- The character that indentation is made of, once a line has shown it. -/
  margin : Option Char
  faults : List (Position × LexicalFault)
deriving Repr

namespace Scan

/-- The scan that begins with `text`. -/
def start (text : List Char) : Scan :=
  { rest := text, position := .start, atMargin := true, tokens := [], brackets := [], levels := [],
    margin := none, faults := [] }

/-- Moves over `taken`, which the text begins with. -/
def move (s : Scan) (taken : List Char) : Scan :=
  { s with rest := s.rest.drop taken.length, position := s.position.after taken }

/-- Adds a token. -/
def emit (s : Scan) (kind : Kind) (lexeme : String) (literal : Option Literal)
    (position : Position) : Scan :=
  { s with tokens := ⟨kind, lexeme, literal, position⟩ :: s.tokens }

/-- Adds a fault. -/
def report (s : Scan) (position : Position) (fault : LexicalFault) : Scan :=
  { s with faults := (position, fault) :: s.faults }

/-- Adds the faults of a piece, each by its distance from here. -/
def reportAll (s : Scan) (faults : List (Nat × LexicalFault)) : Scan :=
  let placed := faults.map fun (offset, fault) => (s.position.right offset, fault)
  { s with faults := placed.reverse ++ s.faults }

/-- Adds `n` tokens that close a block. -/
def emitDedents (s : Scan) (position : Position) (n : Nat) : Scan :=
  { s with tokens := List.replicate n ⟨.dedent, "", none, position⟩ ++ s.tokens }

/-- Whether there is a token and the newest is not of one of these kinds. -/
def lastIsNot (s : Scan) (kinds : List Kind) : Bool :=
  match s.tokens with
  | [] => false
  | t :: _ => !kinds.contains t.kind

/-! ## Margins -/

/-- Indentation is made of spaces or of tabs. -/
def isMargin (c : Char) : Bool := c == ' ' || c == '\t'

/-- What is left of a line that holds nothing, behind its margin: the line break, with the comment
before it. `none` if the line does hold something. -/
def emptyLine? : List Char → Option (List Char)
  | [] => some []
  | '\n' :: _ => some ['\n']
  | '\r' :: '\n' :: _ => some ['\r', '\n']
  | '#' :: text =>
    let comment := Cut.toLineEnd text
    some ('#' :: comment ++ (text.drop comment.length).take 1)
  | _ => none

/-- The character that a margin is made of, if it is all the same. -/
def marginChar? (margin : List Char) : Option Char :=
  match margin.contains ' ', margin.contains '\t' with
  | true, false => some ' '
  | false, true => some '\t'
  | _, _ => none

/-- Whether a margin mixes spaces and tabs, in itself or with the lines before. -/
def isMixed (s : Scan) (margin : List Char) : Bool :=
  match marginChar? margin with
  | some c => s.margin.getD c != c
  | none => margin.contains ' ' && margin.contains '\t'

/-- The width of the innermost open block. -/
def level (s : Scan) : Nat := s.levels.headD 0

/-- Closes the blocks that are wider than `width`. -/
def closeTo (s : Scan) (width : Nat) : Scan :=
  { s with levels := s.levels.dropWhile (· > width) }.emitDedents s.position
    (s.levels.takeWhile (· > width)).length

/-- Opens or closes blocks for a line that begins here, behind a margin of `width`. A margin that is
not `sound` settles on the nearest level without a further fault. -/
def indentTo (s : Scan) (width : Nat) (sound : Bool) : Scan :=
  if width > s.level then
    { s with levels := width :: s.levels }.emit .indent "" none s.position
  else
    let s' := s.closeTo width
    if sound && s'.level != width then s'.report s.position .unevenDedent else s'

/-- Moves over a margin, which may show what indentation is made of, or mix it. -/
def passMargin (s : Scan) (margin : List Char) : Scan :=
  let s' := { s.move margin with
    atMargin := false
    margin := s.margin <|> marginChar? margin }
  if s.isMixed margin then s'.report ⟨s'.position.line, 0⟩ .mixedIndentation else s'

/-- Goes on behind the margin of a line that holds something. -/
def leaveMargin (s : Scan) (margin : List Char) : Scan :=
  (s.passMargin margin).indentTo margin.length !s.isMixed margin

/-- Takes the margin off a line, or the whole line if it holds nothing. -/
def takeMargin (s : Scan) : Scan :=
  let margin := s.rest.takeWhile isMargin
  match emptyLine? (s.rest.drop margin.length) with
  | some line => s.move (margin ++ line)
  | none => s.leaveMargin margin

/-! ## Pieces -/

/-- Keeps count of the open brackets as a token of this kind goes by. -/
def trackBrackets (s : Scan) (kind : Kind) (position : Position) : Scan :=
  match kind with
  | .opening pair => { s with brackets := (pair, position) :: s.brackets }
  | .closing pair =>
    match s.brackets with
    | (inner, _) :: outer =>
      if inner = pair then { s with brackets := outer }
      else s.report position (.unmatchedCloser pair)
    | [] => s.report position (.unmatchedCloser pair)
  | _ => s

/-- A line break ends a statement, unless a bracket is open; of several in a row one is kept. -/
def breakLine (s : Scan) (position : Position) : Scan :=
  if s.brackets.isEmpty then
    let s' := { s with atMargin := true }
    if s.lastIsNot [.newline] then s'.emit .newline "\n" none position else s'
  else if s.lastIsNot [.softNewline] then s.emit .softNewline "\n" none position
  else s

/-- Adds a token that begins here. -/
def addToken (s : Scan) (kind : Kind) (lexeme : List Char) (literal : Option Literal) : Scan :=
  (s.trackBrackets kind s.position).emit kind (String.ofList lexeme) literal s.position

/-- Takes one piece off the text. -/
def takePiece (s : Scan) : Scan :=
  match s.rest with
  | [] => s
  | c :: text =>
    let found := cut c text
    let s' := s.reportAll found.faults
    match found.piece with
    | .skipped => s'.move found.taken
    | .lineBreak => (s'.move found.taken).breakLine s.position
    | .token kind lexeme literal => (s'.addToken kind lexeme literal).move found.taken

/-! ## The whole text -/

/-- One step: the margin of a line, or one piece. -/
def step (s : Scan) : Scan := if s.atMargin then s.takeMargin else s.takePiece

/-- Steps until no text is left, at most `n` times. -/
def run : Nat → Scan → Scan
  | 0, s => s
  | n + 1, s => if s.rest.isEmpty then s else run n s.step

/-- Adds a fault for every bracket that is open, the innermost one first. -/
def reportOpen (s : Scan) : Scan :=
  let placed := s.brackets.map fun (pair, position) => (position, LexicalFault.unclosedOpener pair)
  { s with faults := placed.reverse ++ s.faults }

/-- Closes what is open at the end of the text. -/
def finish (s : Scan) : Scan :=
  let s := s.reportOpen
  let s := if s.lastIsNot [.newline, .dedent] then s.emit .newline "\n" none s.position else s
  let s := { s with levels := [] }.emitDedents ⟨s.position.line, 0⟩ s.levels.length
  { s with brackets := [] }.emit .eof "" none s.position

end Scan

/-- The tokens of a source text, and its faults, each in order. -/
structure Scanned where
  tokens : List Token
  faults : List (Position × LexicalFault)
deriving Repr

/-- Divides a source text into tokens.  A step takes a character or leaves a margin, so twice the
length of the text bounds their number. -/
def scan (text : List Char) : Scanned :=
  let s := (Scan.run (2 * text.length + 1) (.start text)).finish
  ⟨s.tokens.reverse, s.faults.reverse⟩

end Offside.Token
