import Offside.Token.Basic

/-!
# Token/Fault — what can be wrong with a source text before it is parsed
-/

namespace Offside

/-- A reason why a text has no clean division into tokens. -/
inductive LexicalFault where
  | strayCharacter (c : Char)
  | unmatchedCloser (pair : Bracket)
  | unclosedOpener (pair : Bracket)
  | mixedIndentation
  | unevenDedent
  | invalidEscape (c : Char)
  | unterminatedText
  | missingFraction
deriving DecidableEq, Repr

namespace LexicalFault

/-- The wording of a fault. -/
def message : LexicalFault → String
  | strayCharacter c => "unexpected character '" ++ c.toString ++ "'"
  | unmatchedCloser pair => "unmatched '" ++ pair.closer.toString ++ "'"
  | unclosedOpener pair => "unclosed '" ++ pair.opener.toString ++ "'"
  | mixedIndentation => "indentation mixes spaces and tabs"
  | unevenDedent => "dedent does not match any outer indentation level"
  | invalidEscape c => "invalid escape sequence '\\" ++ c.toString ++ "'"
  | unterminatedText => "unterminated string"
  | missingFraction => "expected a digit after the decimal point"

end LexicalFault

end Offside
