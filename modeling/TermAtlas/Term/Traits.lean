import TermAtlas.Declaration.Basic
import TermAtlas.Event

/-!
# Traits

The traits of a term are what its settings come to when they are read: where in its parent element
it is found, which attributes it must have, and what else is known about it. A setting that is absent
or does not have a shape that its key is read from gives the default. Reading is a plain function;
what deserves a warning is listed by `Traits.warnings`.
-/

namespace TermAtlas

open Setting

/-- What a term matches inside its parent element. -/
inductive Locator where
  /-- A child element of this local name. -/
  | element (name : String)
  /-- The attribute of this name. -/
  | attr (name : String)
  deriving DecidableEq, Repr

/-- What the settings of a term come to. -/
structure Traits where
  locator : Locator
  /-- The namespace that element names are qualified with; `none` for no namespace. -/
  qualifier : Option String
  /-- The attributes a matching element must have, in order. -/
  attributes : List (String × String)
  required : Bool
  dataType : String
  indexAs : OrderedSet String
  contentPath : Option String
  variantOf : Option Pointer
  /-- Whether the term is the root element of documents. -/
  isRoot : Bool
  /-- The settings under extension keys. -/
  extensions : Settings
  deriving DecidableEq

namespace Traits

/-- The namespace of terms that name none. -/
def defaultQualifier : String := "oxns"

/-- The data type of terms that name none. -/
def defaultDataType : String := "string"

/-- The attribute that a path in the shape of a mapping names. -/
def attributeName? (m : OrderedMap String Value) : Option String :=
  (m.get? "attribute").bind Value.toText?

/-- The locator that a path is read as; an element of the term's name unless it says otherwise. -/
def locatorOf (name : Name) : Option Value → Locator
  | some (.text path) => if path = "" then .element name.text else .element path
  | some value =>
    match value.asMapping?.bind attributeName? with
    | some label => .attr label
    | none => .element name.text
  | none => .element name.text

/-- The qualifier that a namespace is read as. -/
def qualifierOf : Option Value → Option String
  | none => some defaultQualifier
  | some value => value.toText?

/-- The attribute constraints in a mapping. -/
def attributesOf (value : Option Value) : List (String × String) :=
  match value.bind Value.asMapping? with
  | some m => m.entries.filterMap fun (label, value) => value.toText?.map (label, ·)
  | none => []

/-- The index hints in a set of tags or a single text. -/
def indexHintsOf : Option Value → OrderedSet String
  | some (.tags tags) => tags
  | some (.text tag) => OrderedSet.empty.insert tag
  | _ => ∅

/-- The traits of a term of this name with these settings. -/
def ofSettings (name : Name) (s : Settings) : Traits where
  locator := locatorOf name (s.get? .path)
  qualifier := qualifierOf (s.get? .qualifier)
  attributes := attributesOf (s.get? .attributes)
  required := s.isOn .required
  dataType := (s.text? .dataType).getD defaultDataType
  indexAs := indexHintsOf (s.get? .indexAs)
  contentPath := s.text? .contentPath
  variantOf := s.pointer? .variantOf
  isRoot := s.isOn .root
  extensions := s.extensions

/-- The value under an extension key that is given by its text. -/
def extension? (t : Traits) (text : String) : Option Value := t.extensions.get? (Key.ofText text)

/-! ### Warnings -/

/-- The attribute constraints that are not texts. -/
def attributeWarnings (name : Name) (value : Option Value) : List Event :=
  match value.bind Value.asMapping? with
  | some m => m.entries.filterMap fun (label, value) =>
    if value.toText?.isSome then none else some (.attributeIgnored label name value.kind)
  | none => []

/-- A path that says nothing. -/
def pathWarnings (name : Name) : Option Value → List Event
  | none | some .nil | some (.text _) => []
  | some value =>
    match value.asMapping? with
    | some m => if (attributeName? m).isSome then [] else [.pathWithoutAttribute name]
    | none => [.pathIgnored name value.kind]

/-- What is odd about the settings of a term. -/
def warnings (name : Name) (s : Settings) : List Event :=
  attributeWarnings name (s.get? .attributes) ++ pathWarnings name (s.get? .path)

end Traits

end TermAtlas
