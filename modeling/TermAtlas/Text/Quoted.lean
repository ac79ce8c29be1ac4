import TermAtlas.Text.Printable

/-!
# Quoted text

Messages show a text between double quotes, with an escape for every character that would not be
seen as itself: the quote, the backslash, the common controls by a letter, and any other concealed
character by its position in hexadecimal.
-/

namespace TermAtlas.Text

/-- The position of a character in lower-case hexadecimal, without leading zeros. -/
def hexPosition (c : Char) : List Char :=
  Nat.toDigits 16 c.toNat

/-- A character as it stands inside quoted text. -/
def escapeChar (c : Char) : List Char :=
  if c = '\x00' then ['\\', '0']
  else if c = '\t' then ['\\', 't']
  else if c = '\r' then ['\\', 'r']
  else if c = '\n' then ['\\', 'n']
  else if c = '"' then ['\\', '"']
  else if c = '\\' then ['\\', '\\']
  else if isPrintable c then [c]
  else ['\\', 'u', '\x7b'] ++ hexPosition c ++ ['\x7d']

/-- A text between double quotes, every character escaped as needed. -/
def quoted (text : String) : String :=
  String.ofList ('"' :: text.toList.flatMap escapeChar ++ ['"'])

end TermAtlas.Text
