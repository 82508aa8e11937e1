/-!
# Text/Quoted — texts between double quotes

The form that JSON and JavaScript share: a quote and a backslash are escaped, and so is every
character below the space, by its short escape or by four hexadecimal digits.  All other characters
stand for themselves.
-/

namespace Offside.Text

/-- The hexadecimal digit of `n < 16`, in lower case. -/
def hexDigit (n : Nat) : Char := if n < 10 then Char.ofNat (48 + n) else Char.ofNat (87 + n)

namespace Quoted

/-- A character as it stands between quotes. -/
def escape (c : Char) : List Char :=
  if c == '"' then ['\\', '"']
  else if c == '\\' then ['\\', '\\']
  else if c == '\x08' then ['\\', 'b']
  else if c == '\x0c' then ['\\', 'f']
  else if c == '\n' then ['\\', 'n']
  else if c == '\r' then ['\\', 'r']
  else if c == '\t' then ['\\', 't']
  else if c.toNat < 32 then ['\\', 'u', '0', '0', hexDigit (c.toNat / 16), hexDigit (c.toNat % 16)]
  else [c]

/-- The characters of a text between quotes. -/
def encode (text : List Char) : List Char := '"' :: text.flatMap escape ++ ['"']

end Quoted

/-- The text between double quotes. -/
def quote (text : String) : String := String.ofList (Quoted.encode text.toList)

end Offside.Text
