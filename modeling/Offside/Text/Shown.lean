import Offside.Text.Extending
import Offside.Text.Ignorable
import Offside.Text.Unprintable

/-!
# Text/Shown — texts made visible

Between double quotes, every character that would not be seen on its own is written by an escape:
short for the common ones, and otherwise by its code point between braces.
-/

namespace Offside.Text

/-- The digits of a number in base sixteen, without leading zeros. -/
def hex (n : Nat) : List Char := Nat.toDigits 16 n

/-- A character by its code point. -/
def codePoint (c : Char) : List Char := ['\\', 'u', '\x7b'] ++ hex c.toNat ++ ['\x7d']

/-- Whether a character is not seen on its own. -/
def isUnseen (c : Char) : Bool := isExtending c || isIgnorable c || isUnprintable c

/-- A character made visible. -/
def visible (c : Char) : List Char :=
  if c == '\x00' then ['\\', '0']
  else if c == '\t' then ['\\', 't']
  else if c == '\r' then ['\\', 'r']
  else if c == '\n' then ['\\', 'n']
  else if c == '\\' then ['\\', '\\']
  else if c == '"' then ['\\', '"']
  else if isUnseen c then codePoint c
  else [c]

/-- A text made visible, between double quotes. -/
def makeVisible (text : String) : String :=
  String.ofList ('"' :: text.toList.flatMap visible ++ ['"'])

end Offside.Text
