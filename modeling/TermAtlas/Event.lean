import TermAtlas.Error
import TermAtlas.Setting.Value

/-!
# Events

What is worth recording while terms are declared and built. An event is a fact about names, pointers
and counts; `Event.level` says how much it matters and `Event.message` is its wording.
-/

namespace TermAtlas

/-- How much an event matters. -/
inductive Level where
  | error | warn | info | debug | trace
  deriving DecidableEq, Repr

/-- Something that happened on the way to a result. -/
inductive Event where
  /-- Settings, so many of them, were laid over others. -/
  | merged (upper lower result : Nat)
  /-- The reference of `name` is no pointer and was passed over. -/
  | referenceIgnored (name : Name) (kind : Setting.Value.Kind)
  /-- The reference of `name` was followed to `target`. -/
  | refers (name target : Name) (pointer : Pointer)
  /-- `name` takes over what the terms along its chain of references say. -/
  | resolving (name : Name) (chain : List Name)
  /-- A term became a node. -/
  | builtTerm (name : Name)
  /-- A proxy became a node. -/
  | builtProxy (name : Name) (pointer : Pointer)
  /-- An attribute constraint that is no text was passed over. -/
  | attributeIgnored (label : String) (name : Name) (kind : Setting.Value.Kind)
  /-- The path is a mapping that names no attribute. -/
  | pathWithoutAttribute (name : Name)
  /-- The path is neither text nor mapping. -/
  | pathIgnored (name : Name) (kind : Setting.Value.Kind)
  /-- A proxy leads to `target`. -/
  | forwards (name target : Name)
  /-- A term has its place in documents. -/
  | located (name : Name) (path : String)
  /-- A subtree was attached below the term at `pointer`. -/
  | grafted (name : Name) (pointer : Pointer)
  /-- A terminology is complete. -/
  | built (roots nodes : Nat)
  deriving DecidableEq, Repr

namespace Event

/-- How much an event matters. -/
def level : Event → Level
  | referenceIgnored .. | attributeIgnored .. | pathWithoutAttribute .. | pathIgnored .. => .warn
  | resolving .. | builtTerm .. | builtProxy .. | grafted .. | built .. => .info
  | merged .. | refers .. | forwards .. | located .. => .debug

/-- The wording of an event. -/
def message : Event → String
  | merged upper lower result =>
    "merged " ++ toString upper ++ " downstream over " ++ toString lower ++
      " upstream settings into " ++ toString result
  | referenceIgnored name kind =>
    "ref of " ++ name.symbol ++ " is a " ++ kind.describe ++ "; ignored"
  | refers name target pointer =>
    name.symbol ++ " refers to " ++ target.symbol ++ " at " ++ pointer.render
  | resolving name chain => "resolving " ++ name.symbol ++ " through " ++ renderTrail chain
  | builtTerm name => "built term " ++ name.symbol
  | builtProxy name pointer => "built proxy " ++ name.symbol ++ " to " ++ pointer.render
  | attributeIgnored label name kind =>
    "attribute " ++ label ++ " of " ++ name.symbol ++ " is a " ++ kind.describe ++ "; ignored"
  | pathWithoutAttribute name =>
    "path of " ++ name.symbol ++
      " is a mapping without an `attribute` entry; using the term name"
  | pathIgnored name kind =>
    "path of " ++ name.symbol ++ " is a " ++ kind.describe ++ "; using the term name"
  | forwards name target => "proxy " ++ name.symbol ++ " forwards to " ++ target.symbol
  | located name path => name.symbol ++ " is at " ++ path
  | grafted name pointer => "grafted " ++ name.symbol ++ " under " ++ pointer.render
  | built roots nodes =>
    "built terminology with " ++ toString roots ++ " root terms and " ++ toString nodes ++ " nodes"

end Event

end TermAtlas
