import Offside.Syntax.Cursor
import Offside.Syntax.Fault

/-!
# Syntax/Parser — readers of tokens

A parser moves a cursor and gives a value, or is refused at a token; faults that leave a statement
standing are reported on the way.  Repetition is bounded by the tokens that are left, which is no
bound on what can be read: a round that goes on takes at least one of them.  Where a bound is met
all the same, nothing is recovered from it.
-/

namespace Offside

namespace Parser

/-- A fault at a token. -/
structure Refusal where
  token : Token
  fault : SyntaxFault
deriving Repr

/-- Why a parser gives no value. -/
inductive Halt where
  | refused (refusal : Refusal)
  /-- A bound on repetition or on nesting was met. -/
  | endless
deriving Repr

/-- A fault that was reported, and whether the statement was given up for it. -/
structure Report extends Refusal where
  fatal : Bool
deriving Repr

/-- Where a parser is, and what it has reported, newest first. -/
structure State where
  cursor : Cursor
  reports : List Report
deriving Repr

end Parser

/-- A reader of tokens. -/
abbrev Parser := EStateM Parser.Halt Parser.State

namespace Parser

variable {α : Type}

/-- Moves the cursor. -/
def move (f : Cursor → Cursor) : Parser Unit := fun s => .ok () { s with cursor := f s.cursor }

/-- What the cursor shows. -/
def see (f : Cursor → α) : Parser α := fun s => .ok (f s.cursor) s

/-- The kind of the token at the cursor. -/
def kind : Parser Token.Kind := see Cursor.kind

/-- Whether the token at the cursor is of this kind. -/
def at? (k : Token.Kind) : Parser Bool := see fun c => c.kind = k

/-- Takes the token at the cursor. -/
def take : Parser Token := fun s => .ok s.cursor.current { s with cursor := s.cursor.advance }

/-- Refuses the token at the cursor. -/
def refuse (fault : SyntaxFault) : Parser α := fun s =>
  .error (.refused ⟨s.cursor.current, fault⟩) s

/-- Refuses an earlier token. -/
def refuseAt (token : Token) (fault : SyntaxFault) : Parser α := fun s =>
  .error (.refused ⟨token, fault⟩) s

/-- Meets a bound. -/
def endless : Parser α := fun s => .error .endless s

/-- Takes a token of this kind. -/
def expect (k : Token.Kind) (fault : SyntaxFault) : Parser Token := do
  if ← at? k then take else refuse fault

/-- Takes a token of this kind if it comes next. -/
def accept (k : Token.Kind) : Parser Bool := do
  if ← at? k then
    let _ ← take
    return true
  else
    return false

/-- Reports a fault that leaves the statement standing. -/
def report (token : Token) (fault : SyntaxFault) : Parser Unit := fun s =>
  .ok () { s with reports := ⟨⟨token, fault⟩, false⟩ :: s.reports }

/-- Reads a statement; one that is refused is reported and skipped. -/
def recover (p : Parser α) : Parser (Option α) := fun s =>
  match p s with
  | .ok a s' => .ok (some a) s'
  | .error (.refused refusal) s' =>
    .ok none ⟨s'.cursor.skipStatement, ⟨refusal, true⟩ :: s'.reports⟩
  | .error .endless s' => .error .endless s'

/-! ## Repetition -/

/-- Goes from value to value until a round gives none, which the `n`-th round has to. -/
def iterateUpTo (round : α → Parser (Option α)) : Nat → α → Parser α
  | 0, _ => endless
  | n + 1, a => do
    match ← round a with
    | none => return a
    | some a' => iterateUpTo round n a'

/-- Goes from value to value until a round gives none.  What is left is only measured once a first
round goes on. -/
def iterate (round : α → Parser (Option α)) (a : α) : Parser α := do
  match ← round a with
  | none => return a
  | some a' => fun s => iterateUpTo round (s.cursor.weight + 1) a' s

/-- One or more items with commas between them.  An item may depend on those before it. -/
def commaSeparated (item : List α → Parser α) : Parser (List α) := do
  let first ← item []
  iterate (fun items => do
    if ← accept .comma then
      let next ← item items
      return some (items ++ [next])
    else
      return none) [first]

/-- Whether another item may follow: behind a comma, or on a line of its own. -/
def separator (closer : Token.Kind) : Parser Bool := do
  if ← accept .comma then return true
  see fun c => c.afterSoftBreak && c.kind ≠ closer

/-- The items of a literal, up to its closing bracket. An item may depend on those before it. -/
def elements (closer : Token.Kind) (item : List α → Parser α) : Parser (List α) := do
  let (items, _) ← iterate (fun (items, more) => do
    if !more || (← at? closer) then return none
    let next ← item items
    let more ← separator closer
    return some (items ++ [next], more)) (([] : List α), true)
  return items

end Parser

end Offside
