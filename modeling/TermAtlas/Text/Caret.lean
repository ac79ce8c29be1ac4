import TermAtlas.Text.Pieces

/-!
# Pointing at a place in a text

A diagnostic shows a text and, below it, a caret under the place where reading stopped. The place is
given as a byte offset on a character boundary.

A text of one line is shown whole, and the caret is moved right by the offset in bytes. Of a longer
text only the line is shown, with its number in a gutter, after a heading with the line and the
column. Columns count characters, with two rules at the edges:

* before a character of several bytes the column counts the bytes of the line so far;
* the end of the text lies one column past the last character, on the line where that character is,
  also when it is the line feed that ends this line.
-/

namespace TermAtlas.Text

/-- A place in a text; lines and columns are counted from one. -/
structure Position where
  line : Nat
  column : Nat
  deriving DecidableEq, Repr

/-- The text cut at a byte offset: what lies before it, and the rest. -/
def cutAt : Nat → List Char → List Char × List Char
  | 0, text => ([], text)
  | _ + 1, [] => ([], [])
  | n + 1, c :: text =>
    let (before, after) := cutAt (n + 1 - c.utf8Size) text
    (c :: before, after)

/-- The place between `before` and `after`. -/
def Position.between (before after : List Char) : Position :=
  match after with
  | [] =>
    let line := before.dropLast
    ⟨line.count '\n' + 1, (lastPiece '\n' line).length + 2⟩
  | c :: _ =>
    let line := lastPiece '\n' before
    ⟨before.count '\n' + 1, (if c.utf8Size = 1 then line.length else byteLength line) + 1⟩

/-- `n` spaces. -/
def spaces (n : Nat) : String :=
  String.ofList (List.replicate n ' ')

/-- The text, or its line at `offset`, with a caret under the place and `note` below it. -/
def pointAt (text : String) (offset : Nat) (note : String) : String :=
  if '\n' ∈ text.toList then
    let (before, after) := cutAt offset text.toList
    let place := Position.between before after
    let line := String.ofList ((pieces '\n' text.toList)[place.line - 1]?.getD [])
    let number := toString place.line
    let gutter := spaces number.length
    "parse error at line " ++ number ++ ", column " ++ toString place.column ++ "\n" ++
      gutter ++ " |\n" ++
      number ++ " | " ++ line ++ "\n" ++
      gutter ++ " | " ++ spaces (place.column - 1) ++ "^\n" ++ note
  else
    text ++ "\n" ++ spaces offset ++ "^\n" ++ note

end TermAtlas.Text
