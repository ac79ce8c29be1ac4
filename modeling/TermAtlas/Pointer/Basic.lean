/-!
# Names and pointers

A term is known among its siblings by its `Name`. A `Pointer` is a list of names and addresses a term
by going down from some scope, the roots or the children of a term. An `IndexedPointer` may in each
of its steps also ask for one node among those that match, counted from zero.

Names are shown as symbols, `:title`, and pointers as lists of them, `[:person[0], :title]`.
-/

namespace TermAtlas

/-- The name of a term, unique among its siblings. -/
structure Name where
  text : String
  deriving DecidableEq, Inhabited, Repr

/-- The name as a symbol, with a colon in front. -/
def Name.symbol (name : Name) : String := ":" ++ name.text

/-- The names met on the way down to a term, outermost first. -/
structure Pointer where
  segments : List Name
  deriving DecidableEq, Inhabited, Repr

namespace Pointer

/-- The pointer of one segment. -/
def ofName (name : Name) : Pointer := ⟨[name]⟩

/-- The pointer one segment longer. -/
def join (p : Pointer) (name : Name) : Pointer := ⟨p.segments ++ [name]⟩

/-- The outermost name. -/
def first? (p : Pointer) : Option Name := p.segments.head?

/-- The innermost name. -/
def last? (p : Pointer) : Option Name := p.segments.getLast?

/-- The number of segments. -/
def size (p : Pointer) : Nat := p.segments.length

/-- Whether there are no segments. -/
def isEmpty (p : Pointer) : Bool := p.segments.isEmpty

/-- The pointer as a list of symbols. -/
def render (p : Pointer) : String :=
  "[" ++ ", ".intercalate (p.segments.map Name.symbol) ++ "]"

end Pointer

/-- One step down: a name and, if one node is asked for, its position among those that match. -/
structure Step where
  name : Name
  index : Option UInt64
  deriving DecidableEq, Inhabited, Repr

/-- The step as a symbol, followed by its index in brackets. -/
def Step.render (step : Step) : String :=
  match step.index with
  | some index => step.name.symbol ++ "[" ++ toString index.toNat ++ "]"
  | none => step.name.symbol

/-- A pointer whose steps may each ask for one node. -/
structure IndexedPointer where
  steps : List Step
  deriving DecidableEq, Inhabited, Repr

namespace IndexedPointer

/-- The pointer that asks for no particular node. -/
def ofPointer (p : Pointer) : IndexedPointer := ⟨p.segments.map (⟨·, none⟩)⟩

/-- The names alone. -/
def toPointer (p : IndexedPointer) : Pointer := ⟨p.steps.map Step.name⟩

/-- The pointer as a list of steps. -/
def render (p : IndexedPointer) : String :=
  "[" ++ ", ".intercalate (p.steps.map Step.render) ++ "]"

end IndexedPointer

end TermAtlas
