import Offside.Token.Basic

/-!
# Syntax/Cursor — a place between the tokens of a program

A cursor divides the tokens of a program into those already taken and those that are left, in front
of the token that ends them.  Soft line breaks are stepped over as soon as they come up: they never
stand at the cursor, and the newest taken token tells whether one was just stepped over.
-/

namespace Offside

/-- A place between the tokens of a program. -/
structure Cursor where
  /-- The tokens before the cursor, newest first. -/
  taken : List Token
  /-- The tokens behind the cursor, without the end of the program. -/
  rest : List Token
  /-- The end of the program. -/
  final : Token
deriving Repr

namespace Cursor

/-- Steps over soft line breaks. -/
def skipSoft (taken : List Token) (final : Token) : List Token → Cursor
  | [] => ⟨taken, [], final⟩
  | t :: rest =>
    if t.kind = .softNewline then skipSoft (t :: taken) final rest else ⟨taken, t :: rest, final⟩

/-- The end of a list of tokens: its first end of input, or else one where its last token is. -/
def finalOf (tokens : List Token) : Token :=
  match tokens.find? (·.kind = .eof) with
  | some t => t
  | none => ⟨.eof, "", none, (tokens.getLast?.map (·.position)).getD .start⟩

/-- The cursor before the first token.  What stands behind an end of input is not looked at. -/
def start (tokens : List Token) : Cursor :=
  skipSoft [] (finalOf tokens) (tokens.takeWhile (·.kind ≠ .eof))

/-- All tokens, in order. -/
def tokens (c : Cursor) : List Token := c.taken.reverse ++ c.rest ++ [c.final]

/-- The token at the cursor. -/
def current (c : Cursor) : Token := c.rest.headD c.final

/-- The kind of the token at the cursor. -/
def kind (c : Cursor) : Token.Kind := c.current.kind

/-- The kind of the token behind the one at the cursor. -/
def nextKind? (c : Cursor) : Option Token.Kind :=
  ((c.rest.drop 1).find? (·.kind ≠ .softNewline)).map (·.kind)

/-- The kind of the token taken last. -/
def previousKind? (c : Cursor) : Option Token.Kind :=
  (c.taken.find? (·.kind ≠ .softNewline)).map (·.kind)

/-- Whether the cursor stands behind a soft line break. -/
def afterSoftBreak (c : Cursor) : Bool :=
  match c.taken with
  | [] => false
  | t :: _ => t.kind = .softNewline

/-- The cursor behind its token; the end of the program is never passed. -/
def advance (c : Cursor) : Cursor :=
  match c.rest with
  | [] => c
  | t :: rest => skipSoft (t :: c.taken) c.final rest

/-- The cursor behind the line breaks that it stands before. -/
def skipNewlines (c : Cursor) : Cursor :=
  let breaks := c.rest.takeWhile fun t => t.kind = .newline || t.kind = .softNewline
  ⟨breaks.reverse ++ c.taken, c.rest.drop breaks.length, c.final⟩

/-- The cursor behind the line break that ends a malformed statement, or before the end of the block
that the statement is in. -/
def skipStatement (c : Cursor) : Cursor :=
  let skipped := c.rest.takeWhile fun t => t.kind ≠ .newline && t.kind ≠ .dedent
  let c' : Cursor := ⟨skipped.reverse ++ c.taken, c.rest.drop skipped.length, c.final⟩
  if c'.kind = .newline then c'.advance else c'

/-! ## Leading words -/

/-- The words of a name before and behind its first joiner. -/
def splitName? (name : List Char) : Option (List Char × List Char) :=
  match name.dropWhile (!Token.isJoiner ·) with
  | [] => none
  | _ :: later => some (name.takeWhile (!Token.isJoiner ·), later)

/-- A name that leads a statement: its first word may be a keyword, and what follows that word is
then a name of its own. -/
def leadingWord (t : Token) : List Token :=
  if t.kind ≠ .identifier then [t]
  else match Keyword.ofWord? t.lexeme with
    | some keyword => [{ t with kind := .keyword keyword }]
    | none =>
      match splitName? t.lexeme.toList with
      | none => [t]
      | some (first, later) =>
        match Keyword.ofWord? (String.ofList first) with
        | none => [t]
        | some keyword =>
          [{ t with kind := .keyword keyword, lexeme := String.ofList first },
            ⟨.identifier, String.ofList later, none, t.position.right (first.length + 1)⟩]

/-- The cursor with the keyword of a statement told apart from what follows it. -/
def splitLeadingWord (c : Cursor) : Cursor :=
  match c.rest with
  | [] => c
  | t :: rest => { c with rest := leadingWord t ++ rest }

/-! ## Measure -/

/-- The number of words of the tokens that are left.  A keyword that is split off a name leaves it
as it is, and every token taken lowers it. -/
def weight (c : Cursor) : Nat :=
  c.rest.foldr (fun t words => t.lexeme.toList.countP Token.isJoiner + 1 + words) 0

end Cursor

end Offside
