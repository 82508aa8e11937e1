import Offside.Text.Shown
import Offside.Token.Basic

/-!
# Token/Display — tokens as text, for inspection
-/

namespace Offside.Token

/-- The name of a pair of brackets. -/
def bracketName : Bracket → String
  | .round => "Paren"
  | .square => "Bracket"
  | .curly => "Brace"

/-- The name of a keyword, with a capital. -/
def keywordName : Keyword → String
  | .var => "Var"
  | .«mut» => "Mut"
  | .«let» => "Let"
  | .call => "Call"
  | .«if» => "If"
  | .elif => "Elif"
  | .«else» => "Else"
  | .«while» => "While"
  | .«break» => "Break"
  | .«return» => "Return"

/-- The name of a kind of token. -/
def Kind.name : Kind → String
  | opening pair => "Left" ++ bracketName pair
  | closing pair => "Right" ++ bracketName pair
  | comma => "Comma"
  | dot => "Dot"
  | colon => "Colon"
  | question => "Question"
  | bang => "Bang"
  | plus => "Plus"
  | minus => "Minus"
  | star => "Star"
  | slash => "Slash"
  | percent => "Percent"
  | equal => "Equal"
  | notEqual => "NotEqual"
  | less => "Less"
  | lessEqual => "LessEqual"
  | greater => "Greater"
  | greaterEqual => "GreaterEqual"
  | and => "And"
  | or => "Or"
  | arrow => "Arrow"
  | identifier => "Identifier"
  | number => "Number"
  | text => "Text"
  | Kind.true => "True"
  | Kind.false => "False"
  | null => "Null"
  | fn => "Fn"
  | keyword word => "Keyword(" ++ keywordName word ++ ")"
  | newline => "Newline"
  | softNewline => "SoftNewline"
  | indent => "Indent"
  | dedent => "Dedent"
  | eof => "Eof"

/-- A literal as text. -/
def Literal.display : Literal → String
  | number digits => "Number(" ++ Text.makeVisible digits ++ ")"
  | text value => "Text(" ++ Text.makeVisible value ++ ")"
  | boolean true => "Boolean(true)"
  | boolean false => "Boolean(false)"
  | null => "Null"

/-- A token as text, with all that it holds. -/
def display (t : Token) : String :=
  "Token \x7b kind: " ++ t.kind.name ++ ", lexeme: " ++ Text.makeVisible t.lexeme ++
    ", literal: " ++ (match t.literal with
      | some literal => "Some(" ++ literal.display ++ ")"
      | none => "None") ++
    ", line: " ++ toString t.position.line ++ ", column: " ++ toString t.position.column ++ " \x7d"

end Offside.Token
