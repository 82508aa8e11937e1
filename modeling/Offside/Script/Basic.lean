import Offside.Syntax.Basic

/-!
# Script/Basic — JavaScript modules as trees

Generated code reaches the runtime library through one binding.  Names of the program are kept as
the program spells them; how they are spelled in JavaScript is `Script/Name`, and the text of a
module is `Script/Render`.
-/

namespace Offside.Script

/-- The functions of the runtime library that generated code calls on its own account. -/
inductive Primitive where
  | operator (op : BinaryOp)
  | negate
  /-- Gives its argument back if that is a Boolean, and throws otherwise. -/
  | assertBoolean
  | field | element | putElement
  /-- Seals a function. -/
  | seal
deriving DecidableEq, Repr

/-- The two operators of JavaScript that are used as they are. -/
inductive Connective where
  | and | or
deriving DecidableEq, Repr

mutual

/-- An expression of JavaScript. -/
inductive Code where
  /-- The constant for a number. -/
  | number (digits : String)
  | text (value : String)
  | boolean (value : Bool)
  | null
  /-- A name of the program. -/
  | name (name : String)
  /-- A builtin function, by its name. -/
  | builtin (name : String)
  | primitive (op : Primitive) (arguments : List Code)
  | call (callee : Code) (arguments : List Code)
  | array (elements : List Code)
  | object (properties : List Property)
  | arrow (parameters : List String) (body : List Line)
  | group (inner : Code)
  | not (operand : Code)
  | connective (op : Connective) (left right : Code)
  | conditional (test consequent alternative : Code)
  | assign (name : String) (value : Code)
  | assignField (object : Code) (field : String) (value : Code)

/-- A property of an object. -/
inductive Property where
  | mk (name : String) (value : Code)

/-- A statement of JavaScript. -/
inductive Line where
  | expression (code : Code)
  | block (body : List Line)
  | branch (test : Code) (body : List Line) (rest : Alternative)
  | loop (test : Code) (body : List Line)
  | leave
  | answer (code : Code)
  | declare (mutable : Bool) (name : String) (code : Code)

/-- What a conditional statement of JavaScript does where its test fails. -/
inductive Alternative where
  | nothing
  | body (body : List Line)
  | branch (test : Code) (body : List Line) (rest : Alternative)

end

end Offside.Script

namespace Offside

/-- A module of JavaScript: where it imports the runtime library from, and its statements. -/
structure Script where
  runtime : String
  body : List Script.Line

end Offside
