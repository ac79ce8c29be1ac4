import TermAtlas.Term.Traits
import TermAtlas.XPath.Literal

/-!
# Path expressions of terms

Every term has three path expressions. Two of them query a whole document and grow out of those of
its parent: `absolute` has one segment for each term on the way down, `constrained` has in addition
the attribute constraints of each. The third, `relative`, is the segment of the term alone, for use
against the node that its parent matched.
-/

namespace TermAtlas

namespace Traits

/-- The segment that a term adds to a path. -/
def segment (t : Traits) : String :=
  match t.locator, t.qualifier with
  | .attr name, _ => "@" ++ name
  | .element name, some qualifier => qualifier ++ ":" ++ name
  | .element name, none => name

/-- Whether the term matches elements. -/
def isElement (t : Traits) : Bool :=
  match t.locator with
  | .element _ => true
  | .attr _ => false

end Traits

namespace XPath

/-- The constraint that an attribute has a value. -/
def predicate (entry : String × String) : String :=
  "[@" ++ entry.1 ++ "=" ++ literal entry.2 ++ "]"

/-- One constraint for each attribute, in order. -/
def predicates (attributes : List (String × String)) : String :=
  String.join (attributes.map predicate)

end XPath

/-- The constraints that a term puts on what it matches; attributes have none. -/
def Traits.predicates (t : Traits) : String :=
  if t.isElement then XPath.predicates t.attributes else ""

/-- The path expressions of a term. -/
structure XPaths where
  /-- Queries a document, without attribute constraints. -/
  absolute : String
  /-- Queries a document, with the attribute constraints of every segment. -/
  constrained : String
  /-- Queries the node that the parent matched. -/
  relative : String
  deriving DecidableEq, Repr

/-- The path expressions of a term, given those of its parent if it has one. -/
def XPaths.below (parent : Option XPaths) (t : Traits) : XPaths :=
  match parent with
  | none => ⟨"//" ++ t.segment, "//" ++ t.segment ++ t.predicates, t.segment⟩
  | some p =>
    ⟨p.absolute ++ "/" ++ t.segment, p.constrained ++ "/" ++ t.segment ++ t.predicates, t.segment⟩

end TermAtlas
