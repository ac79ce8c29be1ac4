import TermAtlas.Terminology.Build
import TermAtlas.Terminology.Lookup

/-!
# Grafting

A declaration can be built into a terminology that already exists, below one of its terms. The new
nodes get the next free numbers. A child of the same name is replaced: the new one takes its place,
and the old one stays behind, detached.

Afterwards every proxy has to lead to a term again, those that are detached included: a proxy finds
its way through names, and a graft may give a name to another node. If anything fails there is no new
terminology, and the old one is as good as before.
-/

namespace TermAtlas.Terminology

/-- The terminology with a tree below the term `parent`. -/
def attach (t : Terminology) (parent : Term) (e : Expansion) : Terminology :=
  let link : Link := ⟨e.name, t.size⟩
  { t with nodes :=
      t.nodes.modify parent.id (·.adopt link) ++ e.nodes t.size (some (parent.id, parent.paths)) }

/-- Builds `d` below the term at a pointer; gives the new terminology and the number of the new
node. -/
def graft (t : Terminology) (p : Pointer) (d : Declaration) (registry : Option Registry) :
    Logged (Terminology × Nat) := do
  let id ← Logged.ofExcept (t.locate none p)
  match t.term? id with
  | none => Logged.fail (.unknownTerm id)
  | some parent =>
    let e ← d.expand registry
    let grown := t.attach parent e
    grown.checkLinks
    Logged.note (.grafted d.name p)
    Logged.notes (grown.locations (List.range' t.size e.size))
    pure (grown, t.size)

end TermAtlas.Terminology
