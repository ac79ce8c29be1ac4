import TermAtlas.Terminology.Lookup

/-!
# Drawing terminologies

A terminology is drawn as a directed graph in the dot language: a box for every node that can be
reached from the roots, an edge from its parent to each node, and for proxies a dashed edge to the
term that they stand for. Texts stand between double quotes, where a backslash escapes the character
behind it.

Graphs can be written to places that take only so many bytes, and to files in an empty directory, whose
names and paths may be as long as the place takes.
-/

namespace TermAtlas.Dot

/-- How a graph is drawn. -/
structure Style where
  /-- The title above the graph. -/
  title : Option String
  /-- Whether the absolute path of each term is shown. -/
  showPaths : Bool

/-- Without a title, with paths. -/
def Style.plain : Style := ⟨none, true⟩

/-- A character as it stands between double quotes. -/
def escapeChar (c : Char) : List Char := if c = '"' ∨ c = '\\' then ['\\', c] else [c]

/-- A text between double quotes. -/
def quoted (text : String) : String :=
  String.ofList ('"' :: text.toList.flatMap escapeChar ++ ['"'])

/-- How the node of this number is called in the graph. -/
def nodeName (id : Nat) : String := "term_" ++ toString id

/-- The lines that give the title. -/
def titleLines (title : String) : List String := ["labelloc=\"t\";", "label=" ++ quoted title ++ ";"]

/-- How a node looks, as a list of attributes. -/
def appearance (showPaths : Bool) : Node → List String
  | .term term =>
    "[shape=\"box\"]" ::
      ((if term.traits.isRoot then ["[penwidth=\"2.0\"]"] else []) ++
        (if showPaths then ["[xlabel=" ++ quoted term.paths.absolute ++ "]"] else []))
  | .proxy _ => ["[shape=\"box\"][style=\"dashed\"]"]

/-- The line that declares a node. -/
def nodeLine (showPaths : Bool) (id : Nat) (node : Node) : String :=
  nodeName id ++ " [label=" ++ quoted node.name.text ++ "]" ++
    String.join (appearance showPaths node)

/-- The line that draws an edge from a term to a node below it. -/
def edgeLine (source target : Nat) : String := nodeName source ++ " -> " ++ nodeName target

/-- The line that draws an edge from a proxy to the term it stands for. -/
def dashedLine (source target : Nat) : String := edgeLine source target ++ " [style=\"dashed\"]"

/-- The lines that draw the edges of a node. -/
def edgeLines (t : Terminology) (id : Nat) (node : Node) : List String :=
  (match node.parent with
    | some parent => [edgeLine parent id]
    | none => []) ++
  (match node with
    | .term _ => []
    | .proxy _ =>
      match t.resolveProxy id with
      | .ok target => [dashedLine id target.id]
      | .error _ => [])

/-- The nodes that are drawn, with their numbers. -/
def drawn (t : Terminology) : List (Nat × Node) :=
  t.walk.filterMap fun id => (t.node? id).map (id, ·)

/-- The lines of the graph. -/
def lines (t : Terminology) (style : Style) : List String :=
  ["digraph \x7b", "node [colorscheme=\"ylgnbu6\",fontname=\"monospace\",xlp=\"b\"]"] ++
    (style.title.map titleLines).getD [] ++
    (drawn t).map (fun (id, node) => nodeLine style.showPaths id node) ++
    (drawn t).flatMap (fun (id, node) => edgeLines t id node) ++
    ["\x7d"]

/-- The graph. -/
def render (t : Terminology) (style : Style) : String :=
  String.join ((lines t style).map (· ++ "\n"))

/-! ### Writing -/

/-- The characters of a text that lie within its first `limit` bytes, and whether a further one lies
there in part. -/
def withinBytes : Nat → List Char → List Char × Bool
  | _, [] => ([], false)
  | limit, c :: rest =>
    if c.utf8Size ≤ limit then
      let (kept, split) := withinBytes (limit - c.utf8Size) rest
      (c :: kept, split)
    else ([], 0 < limit)

/-- Writes a text to a place that takes `limit` bytes. If that is not enough the result is what was
written, where a character that was written in part shows as a replacement character. -/
def writeWithin (limit : Nat) (text : String) : Except String String :=
  if text.utf8ByteSize ≤ limit then .ok text
  else
    let (kept, split) := withinBytes limit text.toList
    .error (String.ofList (kept ++ if split then ['\uFFFD'] else []))

/-- The name without its extension: up to the last dot, unless the name starts with that dot. -/
def stem (name : List Char) : List Char :=
  let ending := Text.lastPiece '.' name
  if ending.length + 1 < name.length then name.take (name.length - ending.length - 1) else name

/-- What a place for files takes, in bytes. -/
class Limits where
  /-- How long a path may be that leads to a file there. -/
  path : Nat
  /-- How long the name of a file may be. -/
  name : Nat

/-- What is taken where nothing else is said. -/
instance Limits.usual : Limits := ⟨4079, 255⟩

/-- The name of the file that a path leads to from an empty directory, if it can be created. -/
def fileName? [Limits] (path : String) : Option (List Char) :=
  let parts := Text.pieces '/' path.toList
  match parts.dropLast, parts.getLast? with
  | folders, some name =>
    if folders.head? ≠ some [] ∧ folders.all (fun folder => folder = [] ∨ folder = ['.']) ∧
        name ≠ [] ∧ name ≠ ['.'] ∧ name ≠ ['.', '.'] ∧ '\x00' ∉ name ∧
        Text.byteLength name ≤ Limits.name ∧ path.utf8ByteSize ≤ Limits.path
    then some name else none
  | _, none => none

/-- The graph as it is written to a file in an empty directory; the title is the stem of the file's
name unless the style has one. -/
def renderFile? [Limits] (t : Terminology) (style : Style) (path : String) : Option String :=
  (fileName? path).map fun name =>
    render t { style with title := style.title.or (some (String.ofList (stem name))) }

end TermAtlas.Dot
