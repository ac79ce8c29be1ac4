import TermAtlas.Pointer.Reader
import TermAtlas.Text.Quoted

/-!
# Errors

What can go wrong while terms are declared, built and looked up. An error is a cause with the names
and pointers that it is about; `Error.message` is its wording.
-/

namespace TermAtlas

/-- Why an operation on declarations or on a terminology has no result. -/
inductive Error where
  /-- The term `name` refers or forwards to `pointer`, where there is no term. -/
  | badPointer (name : Name) (pointer : Pointer)
  /-- There is no term at `pointer`; the first segment without a term is `missing`. -/
  | noSuchTerm (pointer : Pointer) (missing : Name)
  /-- A pointer without segments was looked up. -/
  | emptyPointer
  /-- References, or proxies, lead back to where they have been. The trail holds the names on the
  way and ends in the repeated one. -/
  | circularReference (trail : List Name)
  /-- The term `name` has a reference, and there is nothing to look it up in. -/
  | missingReferenceContext (name : Name)
  /-- No node has this number. -/
  | unknownTerm (id : Nat)
  /-- The text is no pointer. -/
  | pointerSyntax (text : String) (fault : ReadFault)
  deriving DecidableEq, Repr

/-- A trail of names, as symbols with arrows between them. -/
def renderTrail (trail : List Name) : String := " => ".intercalate (trail.map Name.symbol)

/-- The wording of an error. -/
def Error.message : Error → String
  | badPointer name pointer =>
    name.symbol ++ " refers to a term builder that doesn't exist. The bad pointer is " ++
      pointer.render
  | noSuchTerm pointer missing =>
    "no term builder exists at " ++ pointer.render ++ "; everything is fine until " ++
      missing.symbol ++ ", which doesn't exist"
  | emptyPointer => "cannot retrieve a term builder with an empty pointer"
  | circularReference trail => "Circular reference in terminology: " ++ renderTrail trail
  | missingReferenceContext name =>
    "cannot look up references for the " ++ name.symbol ++
      " builder: it is not attached to any terminology"
  | unknownTerm id => "no node with id " ++ toString id ++ " exists in this terminology"
  | pointerSyntax text fault => "invalid pointer " ++ Text.quoted text ++ ": " ++ fault.message text

/-- Reads a pointer; a text that is none is an error. -/
def Pointer.ofText (text : String) : Except Error Pointer :=
  (Pointer.parse text).mapError (.pointerSyntax text)

/-- Reads an indexed pointer; a text that is none is an error. -/
def IndexedPointer.ofText (text : String) : Except Error IndexedPointer :=
  (IndexedPointer.parse text).mapError (.pointerSyntax text)

end TermAtlas
