import Offside.Token.Basic

/-!
# Syntax/Fault — what can be wrong with a list of tokens
-/

namespace Offside

/-- A reason why tokens are no program.  `expected…` faults name what should have come next. -/
inductive SyntaxFault where
  | branchWithoutIf (keyword : Keyword)
  | expectedDeclaredName (keyword : String)
  | expectedDeclaredTypeEnd
  | expectedDeclaredValue
  | expectedAssignedValue
  | invalidTarget
  | callWithoutCall
  | breakOutsideLoop
  | expectedParameterList
  | expectedParameter
  | duplicateParameter
  | expectedParameterListEnd
  | expectedLineBreakBeforeBlock
  | expectedBlock
  | namedFunctionLiteral
  | bareFunctionLiteral
  | expectedAlternative
  | expectedMemberName
  | expectedIndexEnd
  | expectedCall
  | expectedArgumentListEnd
  | expectedGroupEnd
  | expectedExpression
  | expectedListEnd
  | expectedField
  | duplicateField
  | expectedFieldValue
  | expectedRecordEnd
  | expectedType
  | expectedElementTypeEnd
  | expectedRecordTypeEnd
  | expectedTypeArgumentsEnd
  | expectedParameterTypesEnd
  | expectedResultType
  | expectedStatementEnd
deriving DecidableEq, Repr

namespace SyntaxFault

/-- The wording of a fault. -/
def message : SyntaxFault → String
  | branchWithoutIf keyword => "'" ++ keyword.word ++ "' without a matching 'if'"
  | expectedDeclaredName keyword => "expected a name after '" ++ keyword ++ "'"
  | expectedDeclaredTypeEnd => "expected ')' after the declared type"
  | expectedDeclaredValue => "expected ':' after the declared name"
  | expectedAssignedValue => "expected ':' after the assignment target"
  | invalidTarget => "invalid assignment target"
  | callWithoutCall => "'call' must be followed by a function call"
  | breakOutsideLoop => "'break' outside of a loop"
  | expectedParameterList => "expected '(' before the parameter list"
  | expectedParameter => "expected a parameter name"
  | duplicateParameter => "duplicate parameter name"
  | expectedParameterListEnd => "expected ',' or ')' in the parameter list"
  | expectedLineBreakBeforeBlock => "expected a line break before an indented block"
  | expectedBlock => "expected an indented block"
  | namedFunctionLiteral => "a function literal cannot be named"
  | bareFunctionLiteral => "a function literal must be wrapped in parentheses here"
  | expectedAlternative => "expected '!' between the branches of a conditional expression"
  | expectedMemberName => "expected a field name after '.'"
  | expectedIndexEnd => "expected ']' after the index"
  | expectedCall => "expected '(' to call this expression"
  | expectedArgumentListEnd => "expected ',' or ')' in the argument list"
  | expectedGroupEnd => "expected ')' after the expression"
  | expectedExpression => "expected an expression"
  | expectedListEnd => "expected ',' or ']' in the list literal"
  | expectedField => "expected a field name"
  | duplicateField => "duplicate field in record literal"
  | expectedFieldValue => "expected ':' after the field name"
  | expectedRecordEnd => "expected ',' or '\x7d' in the record literal"
  | expectedType => "expected a type"
  | expectedElementTypeEnd => "expected ']' after the element type"
  | expectedRecordTypeEnd => "expected '\x7d' after the record type"
  | expectedTypeArgumentsEnd => "expected ']' after the type arguments"
  | expectedParameterTypesEnd => "expected ')' after the parameter types"
  | expectedResultType => "expected '→' after the parameter types"
  | expectedStatementEnd => "expected a line break after the statement"

end SyntaxFault

end Offside
