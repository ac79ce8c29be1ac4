import TermAtlas.Declaration.Registry

/-!
# Recipes

A recipe says how a declaration comes about: from a new one, or from a copy of one that exists, by a
sequence of calls. Pointers in it may be given as texts, which are read when their turn comes, so that
of several faults the first one counts.
-/

namespace TermAtlas

/-- A pointer, given by its segments or by its text. -/
inductive Address where
  | segments (pointer : Pointer)
  | text (text : String)

/-- The pointer that an address gives. -/
def Address.read : Address → Except Error Pointer
  | segments p => .ok p
  | text s => Pointer.ofText s

/-- An indexed pointer, given by its steps, by its text, or by a pointer. -/
inductive IndexedAddress where
  | steps (pointer : IndexedPointer)
  | text (text : String)
  | plain (address : Address)

/-- The indexed pointer that an address gives. -/
def IndexedAddress.read : IndexedAddress → Except Error IndexedPointer
  | steps p => .ok p
  | text s => IndexedPointer.ofText s
  | plain a => a.read.map IndexedPointer.ofPointer

/-- What a recipe starts from. -/
inductive Source where
  /-- A new declaration of this name. -/
  | new (name : Name)
  /-- A copy of a draft. -/
  | draft (draft : String)
  /-- A copy of a declaration in a registry. -/
  | declared (registry : String) (address : Address)

mutual

/-- How a declaration comes about. -/
inductive Recipe where
  | mk (source : Source) (calls : List Call)

/-- One step of a recipe. -/
inductive Call where
  /-- Gives a key a value. -/
  | set (key : Setting.Key) (value : Setting.Value)
  /-- Gives a key a pointer. -/
  | point (key : Setting.Key) (address : Address)
  /-- Adopts a child. -/
  | adopt (child : Recipe)

end

end TermAtlas
