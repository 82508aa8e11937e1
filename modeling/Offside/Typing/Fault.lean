import Offside.Token.Basic
import Offside.Ty.Display

/-!
# Typing/Fault — what can be wrong with the types of a program
-/

namespace Offside

/-- A reason why a statement has no type. -/
inductive TypeFault where
  | duplicateDeclaration (name : String)
  | undeclared (name : String)
  | immutable (name : String)
  | badCondition (found : Ty)
  | badNumberOperand (operator : String) (found : Ty)
  | badBooleanOperand (operator : String) (found : Ty)
  | badNegation (found : Ty)
  | cannotAdd (left right : Ty)
  | cannotOrder (left right : Ty)
  | cannotCompare (left right : Ty)
  | branchesDiffer (consequent alternative : Ty)
  | elementsDiffer (earlier later : Ty)
  | noSuchField (name : String)
  | fieldOfList (name : String)
  | indexOfRecord
  | badIndex (found : Ty)
  | memberOf (object : Ty)
  | cannotAssign (value : Ty) (name : String) (declared : Ty)
  | cannotAssignMember (value member : Ty)
  | cannotCall (callee : Ty)
  | wrongArity (expected found : Nat)
  /-- Arguments are counted from one. -/
  | badArgument (number : Nat) (expected found : Ty)
  | answerOutsideFunction
  | answersDiffer (expected found : Ty)
  | declaredTypeDiffers (declared inferred : Ty)
deriving Repr

namespace TypeFault

/-- The wording of a fault. -/
def message : TypeFault → String
  | duplicateDeclaration name => "duplicated declaration of '" ++ name ++ "'"
  | undeclared name => "undeclared name '" ++ name ++ "'"
  | immutable name => "cannot assign to immutable binding '" ++ name ++ "'"
  | badCondition found => "condition must be Boolean, found " ++ found.display
  | badNumberOperand operator found =>
    "operator '" ++ operator ++ "' expects Number operands, found " ++ found.display
  | badBooleanOperand operator found =>
    "operator '" ++ operator ++ "' expects Boolean operands, found " ++ found.display
  | badNegation found => "operator '!' expects a Boolean operand, found " ++ found.display
  | cannotAdd left right => "cannot add " ++ left.display ++ " and " ++ right.display
  | cannotOrder left right => "cannot order " ++ left.display ++ " and " ++ right.display
  | cannotCompare left right => "cannot compare " ++ left.display ++ " with " ++ right.display
  | branchesDiffer consequent alternative =>
    "branches of a conditional expression have different types: " ++ consequent.display ++
      " and " ++ alternative.display
  | elementsDiffer earlier later =>
    "list elements have different types: " ++ earlier.display ++ " and " ++ later.display
  | noSuchField name => "record has no field '" ++ name ++ "'"
  | fieldOfList name => "a list has no field '" ++ name ++ "'"
  | indexOfRecord => "record fields are accessed with '.name'"
  | badIndex found => "list index must be Number, found " ++ found.display
  | memberOf object => "cannot access a member of a value of type " ++ object.display
  | cannotAssign value name declared =>
    "cannot assign " ++ value.display ++ " to '" ++ name ++ "' of type " ++ declared.display
  | cannotAssignMember value member =>
    "cannot assign " ++ value.display ++ " to a member of type " ++ member.display
  | cannotCall callee => "cannot call a value of type " ++ callee.display
  | wrongArity expected found =>
    "wrong number of arguments: expected " ++ toString expected ++ ", found " ++ toString found
  | badArgument number expected found =>
    "argument " ++ toString number ++ ": expected " ++ expected.display ++ ", found " ++
      found.display
  | answerOutsideFunction => "'return' outside of a function"
  | answersDiffer expected found =>
    "inconsistent return types: expected " ++ expected.display ++ ", found " ++ found.display
  | declaredTypeDiffers declared inferred =>
    "declared type " ++ declared.display ++ " does not match inferred type " ++ inferred.display

end TypeFault

end Offside
