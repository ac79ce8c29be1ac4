import TermAtlas.Terminology.Expansion

/-!
# Terminologies

A terminology holds the nodes that were built, by number, and the roots by name. A scope is where a
name is looked up: the roots, or the children of a term.

Nodes can be *detached*: a child that another one took the place of is no longer found below its
parent, but keeps its number.
-/

namespace TermAtlas

/-- Built nodes and their roots. -/
structure Terminology where
  /-- The nodes; each one's number is its place in the list. -/
  nodes : List Node
  /-- The roots, in order. -/
  roots : List Link
  deriving DecidableEq

namespace Terminology

instance : Inhabited Terminology := ⟨⟨[], []⟩⟩

/-- The terminology whose roots are the given trees. -/
def ofForest (forest : List Expansion) : Terminology :=
  ⟨Expansion.nodesOfAll 0 none forest, Expansion.links 0 forest⟩

/-- The number of nodes. -/
def size (t : Terminology) : Nat := t.nodes.length

/-- The node of this number. -/
def node? (t : Terminology) (id : Nat) : Option Node := t.nodes[id]?

/-- The term of this number. -/
def term? (t : Terminology) (id : Nat) : Option Term := (t.node? id).bind Node.term?

/-- The term above the node of this number. -/
def parent? (t : Terminology) (id : Nat) : Option Term :=
  ((t.node? id).bind Node.parent).bind t.term?

/-- The nodes that a scope holds, in order: the roots, or the children of a term. -/
def scope (t : Terminology) : Option Nat → List Link
  | none => t.roots
  | some id => ((t.term? id).map Term.children).getD []

/-- The node under a name in a scope. -/
def child? (t : Terminology) (scope : Option Nat) (name : Name) : Option Nat :=
  (Roster.find? name (t.scope scope)).map Link.node

/-- The nodes below the term of this number, in order. -/
def children (t : Terminology) (id : Nat) : List Node :=
  (t.scope (some id)).filterMap fun link => t.node? link.node

/-- The nodes of the roots, in order. -/
def rootNodes (t : Terminology) : List Node := t.roots.filterMap fun link => t.node? link.node

/-- The terms among the roots that are root elements of documents. -/
def rootTerms (t : Terminology) : List Term :=
  (t.rootNodes.filterMap Node.term?).filter (·.traits.isRoot)

/-- The text that the first root element has under an extension key. -/
def rootExtension? (t : Terminology) (text : String) : Option String :=
  (t.rootTerms.head?.bind (·.traits.extension? text)).bind Setting.Value.asText?

theorem lt_size_of_node? {t : Terminology} {id : Nat} {node : Node}
    (h : t.node? id = some node) : id < t.size :=
  (List.getElem?_eq_some_iff.1 h).1

theorem lt_size_of_term? {t : Terminology} {id : Nat} {term : Term}
    (h : t.term? id = some term) : id < t.size := by
  obtain ⟨node, hnode, -⟩ := Option.bind_eq_some_iff.1 h
  exact lt_size_of_node? hnode

theorem term?_of_node? {t : Terminology} {id : Nat} {term : Term}
    (h : t.node? id = some (.term term)) : t.term? id = some term := by
  rw [term?, h]
  rfl

theorem node?_of_term? {t : Terminology} {id : Nat} {term : Term} (h : t.term? id = some term) :
    t.node? id = some (.term term) := by
  obtain ⟨node, hnode, hterm⟩ := Option.bind_eq_some_iff.1 h
  cases node with
  | term other => exact Option.some.inj hterm ▸ hnode
  | proxy proxy => cases hterm

theorem scope_of_term? {t : Terminology} {id : Nat} {term : Term} (h : t.term? id = some term) :
    t.scope (some id) = term.children := by
  rw [scope, h]
  rfl

/-- Terminologies with the same roots and the same node under every number are the same. -/
theorem ext_node? {t t' : Terminology} (hroots : t.roots = t'.roots)
    (hnodes : ∀ id, t.node? id = t'.node? id) : t = t' := by
  obtain ⟨nodes, roots⟩ := t
  obtain ⟨nodes', roots'⟩ := t'
  obtain rfl : roots = roots' := hroots
  obtain rfl : nodes = nodes' := List.ext_getElem? hnodes
  rfl

/-- What is found when one node has been changed. -/
theorem node?_modify (t : Terminology) (changed : Nat) (f : Node → Node) (id : Nat) :
    ({ t with nodes := t.nodes.modify changed f } : Terminology).node? id =
      (t.node? id).map fun node => if id = changed then f node else node := by
  rw [node?, List.getElem?_modify, node?]
  by_cases h : id = changed
  · simp [h]
  · simp [h, Ne.symm h]

/-! ### Walking -/

/-- The node `id` and the nodes below it, every term before the nodes below it. Nodes below a term
have higher numbers than the term; a link that leads elsewhere is not followed. -/
def subtree (t : Terminology) (id : Nat) : List Nat :=
  id :: match _h : t.term? id with
    | none => []
    | some term =>
      term.children.flatMap fun link => if _h' : id < link.node then subtree t link.node else []
termination_by t.size - id
decreasing_by
  have := lt_size_of_term? _h
  omega

/-- The nodes that can be reached from the roots, every term before the nodes below it. -/
def walk (t : Terminology) : List Nat := t.roots.flatMap fun link => t.subtree link.node

/-! ### Paths -/

/-- The terminology with the paths of a term derived anew from those of its parent. -/
def refresh (t : Terminology) (id : Nat) : Terminology :=
  let above := (t.parent? id).map Term.paths
  { t with nodes := t.nodes.modify id (Node.mapTerm fun term =>
      { term with paths := XPaths.below above term.traits }) }

/-- Derives the paths of a node and all nodes below it anew, from above to below. -/
def regenerate (t : Terminology) (id : Nat) : Terminology := (t.subtree id).foldl refresh t

/-- Where each of the given nodes is, proxies left out. -/
def locations (t : Terminology) (ids : List Nat) : List Event :=
  (ids.filterMap t.term?).map fun term => .located term.name term.paths.constrained

/-- Derives paths anew and records where every term is then. -/
def regenerateLogged (t : Terminology) (id : Nat) : Logged Terminology := do
  Logged.notes ((t.regenerate id).locations (t.subtree id))
  pure (t.regenerate id)

end Terminology

end TermAtlas
