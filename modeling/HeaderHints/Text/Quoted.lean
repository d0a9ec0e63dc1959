import HeaderHints.Text.Visible

/-!
# Quoted text

Messages quote what they talk about: the text stands between double quotes on one line, and a
character that could end the quotation, break the line or go unseen is written as an escape.
-/

namespace HeaderHints.Text

/-- The escape of a character by its code point, in lower-case hexadecimal digits. -/
def codePoint (c : Char) : Text :=
  "\\u\x7b".toList ++ Nat.toDigits 16 c.toNat ++ ['}']

/-- How a character is written inside quotes. -/
def escaped (c : Char) : Text :=
  if c = '"' then ['\\', '"']
  else if c = '\\' then ['\\', '\\']
  else if c = '\n' then ['\\', 'n']
  else if c = '\r' then ['\\', 'r']
  else if c = '\t' then ['\\', 't']
  else if c = '\x00' then ['\\', '0']
  else if isVisible c then [c]
  else codePoint c

/-- A text in double quotes. -/
def quoted (t : Text) : Text :=
  '"' :: t.flatMap escaped ++ ['"']

end HeaderHints.Text
