import Offside.Token.Basic

/-!
# Script/Name — names in JavaScript

A name of a program may have several words and a question mark, and may be a word that JavaScript
keeps for itself.  What takes its place is free of both; names that begin with a dollar sign are
left to the generated code.
-/

namespace Offside.Script

/-- The words that JavaScript keeps for itself. -/
def reservedWords : List String :=
  ["arguments", "await", "break", "case", "catch", "class", "const", "continue", "debugger",
    "default", "delete", "do", "else", "enum", "eval", "export", "extends", "false", "finally",
    "for", "function", "if", "implements", "import", "in", "Infinity", "instanceof", "interface",
    "let", "NaN", "new", "null", "package", "private", "protected", "public", "return", "static",
    "super", "switch", "this", "throw", "true", "try", "typeof", "undefined", "var", "void",
    "while", "with", "yield"]

/-- The names outside of the module that generated code uses. -/
def usedGlobals : List String := ["Object", "globalThis"]

/-- A character of a name: what joins two words, and a question mark, become an underscore. -/
def nameChar (c : Char) : Char := if Token.isJoiner c || c == '?' then '_' else c

/-- The name of a property.  Any word can be one. -/
def memberName (name : String) : String := String.ofList (name.toList.map nameChar)

/-- The name of a binding. -/
def bindingName (name : String) : String :=
  let bare := memberName name
  if reservedWords.contains bare || usedGlobals.contains bare then "$$" ++ bare else bare

/-- A character of a number within a name. -/
def numberChar : Char → Char
  | '.' => '_'
  | '-' => 'm'
  | '+' => 'p'
  | c => c

/-- The name of the constant for a number. -/
def constantName (digits : String) : String :=
  "$n" ++ String.ofList (digits.toList.map numberChar)

end Offside.Script
