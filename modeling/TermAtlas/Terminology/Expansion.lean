import TermAtlas.Declaration.Reference
import TermAtlas.Term.Node

/-!
# Expansions

The expansion of a declaration is the tree that it builds: the declaration is resolved; if it then
forwards somewhere it is a proxy, otherwise a term with the expansions of its children below it.

A declaration may import a copy of one that it lies below, and then there is no end to its expansion.
So a declaration is expanded only if its identity is not already being expanded above it; the
identities that may still be expanded are handed down, and become fewer with every level.

`nodes` lays an expansion out as numbered nodes, every term before the nodes below it; the number of
a node is its place. A term is laid out with its paths, which need those of the term above and nothing
else.

## What is proved

* `length_nodes` — a tree is laid out as as many nodes as it has.
-/

namespace TermAtlas

/-- What a declaration builds. -/
inductive Expansion where
  | term (name : Name) (traits : Traits) (children : List Expansion)
  | proxy (name : Name) (pointer : Pointer) (settings : Settings)

/-- The expansion of `d`, given the identities that may still be expanded and the names of the
declarations being expanded above. -/
def Declaration.expandWithin (registry : Option Registry) (fresh : List Identity)
    (above : List Name) (d : Declaration) : Logged Expansion :=
  if _h : d.id ∈ fresh then do
    let resolved ← d.resolve registry
    match resolved.settings.pointer? .proxy with
    | some pointer =>
      Logged.note (.builtProxy d.name pointer)
      pure (.proxy d.name pointer resolved.settings)
    | none =>
      Logged.note (.builtTerm d.name)
      Logged.notes (Traits.warnings d.name resolved.settings)
      let children ← Logged.traverse
        (fun child => expandWithin registry (d.id.without fresh) (above ++ [d.name]) child)
        resolved.children
      pure (.term d.name (Traits.ofSettings d.name resolved.settings) children)
  else Logged.fail (.circularReference (above ++ [d.name]))
termination_by fresh.length
decreasing_by exact Identity.length_without_lt _h

/-- The expansion of `d`. -/
def Declaration.expand (d : Declaration) (registry : Option Registry) : Logged Expansion :=
  let known := (registry.map Registry.identities).getD []
  expandWithin registry (d.identities ++ known) [] d

namespace Expansion

/-- The name of the outermost node. -/
def name : Expansion → Name
  | term name _ _ => name
  | proxy name _ _ => name

mutual

/-- The number of nodes. -/
def size : Expansion → Nat
  | term _ _ children => sizeOfAll children + 1
  | proxy _ _ _ => 1

/-- The number of nodes of some trees. -/
def sizeOfAll : List Expansion → Nat
  | [] => 0
  | e :: rest => size e + sizeOfAll rest

end

/-- The outermost nodes of trees that are laid out one after the other from `start` on. -/
def links (start : Nat) : List Expansion → List Link
  | [] => []
  | e :: rest => ⟨e.name, start⟩ :: links (start + e.size) rest

mutual

/-- The nodes of a tree, numbered from `start` on, below a term of this number and these paths. -/
def nodes (start : Nat) (above : Option (Nat × XPaths)) : Expansion → List Node
  | proxy name pointer settings => [.proxy ⟨start, name, above.map (·.1), pointer, settings⟩]
  | term name traits children =>
    let paths := XPaths.below (above.map (·.2)) traits
    .term ⟨start, name, above.map (·.1), traits, links (start + 1) children, paths⟩ ::
      nodesOfAll (start + 1) (some (start, paths)) children

/-- The nodes of some trees, one tree after the other. -/
def nodesOfAll (start : Nat) (above : Option (Nat × XPaths)) : List Expansion → List Node
  | [] => []
  | e :: rest => nodes start above e ++ nodesOfAll (start + size e) above rest

end

mutual

/-- A tree is laid out as so many nodes. -/
theorem length_nodes (start : Nat) (above : Option (Nat × XPaths)) (e : Expansion) :
    (nodes start above e).length = e.size := by
  cases e with
  | proxy name pointer settings => rfl
  | term name traits children =>
    rw [nodes, List.length_cons, length_nodesOfAll, size]

/-- Some trees are laid out as so many nodes. -/
theorem length_nodesOfAll (start : Nat) (above : Option (Nat × XPaths)) (es : List Expansion) :
    (nodesOfAll start above es).length = sizeOfAll es := by
  cases es with
  | nil => rfl
  | cons e rest =>
    rw [nodesOfAll, List.length_append, length_nodes, length_nodesOfAll, sizeOfAll]

end

end Expansion

end TermAtlas
