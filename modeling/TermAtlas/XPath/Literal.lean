import TermAtlas.Text.Pieces

/-!
# String literals of path expressions

A literal stands between two double quotes or two single quotes and has no escapes. A text with both
kinds of quotes is therefore written as a concatenation: its pieces between double quotes, each
between double quotes, and the double quotes, each between single quotes.
-/

namespace TermAtlas.XPath

/-- A text between two quotes. -/
def enclosed (mark : Char) (text : List Char) : String := String.ofList (mark :: text ++ [mark])

/-- An expression whose value is `text`. -/
def literal (text : String) : String :=
  let chars := text.toList
  if '"' ∉ chars then enclosed '"' chars
  else if '\'' ∉ chars then enclosed '\'' chars
  else
    "concat(" ++ ", '\"', ".intercalate ((Text.pieces '"' chars).map (enclosed '"')) ++ ")"

end TermAtlas.XPath
