import Offside.Syntax.Basic
import Offside.Syntax.Parser

/-!
# Syntax/TypeGrammar — reading types

A type is a name, perhaps with arguments, a list, a record or a function type; a question mark
behind it makes it optional.
-/

namespace Offside.TypeExpr

open Offside.Parser

/-- A named type.  The question mark of an optional type may be part of the name's token. -/
def readNamed (inner : Parser TypeExpr) : Parser TypeExpr := do
  let token ← take
  let name := token.lexeme.toList
  if name.getLast? = some '?' then
    return .maybe (.named { token with lexeme := String.ofList name.dropLast } [])
  else if ← accept (.opening .square) then
    let arguments ← commaSeparated fun _ => inner
    let _ ← expect (.closing .square) .expectedTypeArgumentsEnd
    return .named token arguments
  else
    return .named token []

/-- A field of a record type. -/
def readField (inner : Parser TypeExpr) : Parser (Token × TypeExpr) := do
  let key ← expect .identifier .expectedField
  let _ ← expect .colon .expectedFieldValue
  return (key, ← inner)

/-- A function type, or a type in parentheses where no arrow follows. -/
def readFunctionOrGroup (inner : Parser TypeExpr) : Parser TypeExpr := do
  let paren ← take
  let parameters ←
    if ← at? (.closing .round) then pure [] else commaSeparated fun _ => inner
  let _ ← expect (.closing .round) .expectedParameterTypesEnd
  if ← accept .arrow then
    return .function paren parameters (← inner)
  match parameters with
  | [only] => return only
  | _ => refuse .expectedResultType

/-- A type without the question marks behind it. -/
def readBase (inner : Parser TypeExpr) : Parser TypeExpr := do
  match ← kind with
  | .identifier => readNamed inner
  | .opening .square =>
    let bracket ← take
    let element ← inner
    let _ ← expect (.closing .square) .expectedElementTypeEnd
    return .list bracket element
  | .opening .curly =>
    let brace ← take
    let fields ← elements (.closing .curly) fun _ => readField inner
    let _ ← expect (.closing .curly) .expectedRecordTypeEnd
    return .record brace fields
  | .opening .round => readFunctionOrGroup inner
  | _ => refuse .expectedType

/-- Reads a type whose parts nest less than `depth` deep. -/
def readTo : Nat → Parser TypeExpr
  | 0 => endless
  | depth + 1 => do
    let type ← readBase (fun s => readTo depth s)
    iterate (fun type => do
      if ← accept .question then return some (.maybe type) else return none) type

/-- Reads a type.  Every level of nesting takes a token, so the tokens that are left bound it. -/
def read : Parser TypeExpr := fun s => readTo (s.cursor.weight + 1) s

end Offside.TypeExpr
