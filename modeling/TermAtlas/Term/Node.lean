import TermAtlas.Roster
import TermAtlas.XPath.Paths

/-!
# Nodes

A built terminology consists of numbered nodes. A *term* has traits and children; a *proxy* has
neither and forwards to the term at a pointer, which starts from the siblings of the proxy.
-/

namespace TermAtlas

/-- A node, by its number, under a name. -/
structure Link where
  name : Name
  node : Nat
  deriving DecidableEq, Repr

instance : Named Link := ⟨Link.name⟩

/-- A node that matches something in documents. -/
structure Term where
  id : Nat
  name : Name
  /-- The term above; none for roots. -/
  parent : Option Nat
  traits : Traits
  /-- The children, in order. -/
  children : List Link
  paths : XPaths
  deriving DecidableEq

/-- The term with an entry for one more child, in the place of the one that has its name or else
last. -/
def Term.adopt (term : Term) (link : Link) : Term :=
  { term with children := Roster.put link term.children }

/-- A node that forwards to a term. -/
structure Proxy where
  id : Nat
  name : Name
  /-- The term above; none for roots. -/
  parent : Option Nat
  pointer : Pointer
  settings : Settings
  deriving DecidableEq

/-- A term or a proxy. -/
inductive Node where
  | term (term : Term)
  | proxy (proxy : Proxy)
  deriving DecidableEq

namespace Node

/-- The number of the node. -/
def id : Node → Nat
  | term t => t.id
  | proxy p => p.id

/-- The name of the node. -/
def name : Node → Name
  | term t => t.name
  | proxy p => p.name

/-- The term above the node. -/
def parent : Node → Option Nat
  | term t => t.parent
  | proxy p => p.parent

/-- The node as a term, unless it is a proxy. -/
def term? : Node → Option Term
  | term t => some t
  | proxy _ => none

/-- The node with a term changed by `f`; proxies stay. -/
def mapTerm (f : Term → Term) : Node → Node
  | term t => term (f t)
  | proxy p => proxy p

/-- The node with an entry for one more child if it is a term; proxies stay. -/
def adopt (node : Node) (link : Link) : Node := node.mapTerm (·.adopt link)

@[simp]
theorem id_adopt (node : Node) (link : Link) : (node.adopt link).id = node.id := by
  cases node <;> rfl

@[simp]
theorem name_adopt (node : Node) (link : Link) : (node.adopt link).name = node.name := by
  cases node <;> rfl

@[simp]
theorem parent_adopt (node : Node) (link : Link) : (node.adopt link).parent = node.parent := by
  cases node <;> rfl

theorem term?_adopt (node : Node) (link : Link) :
    (node.adopt link).term? = node.term?.map (·.adopt link) := by
  cases node <;> rfl

end Node

end TermAtlas
