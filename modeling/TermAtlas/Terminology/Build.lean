import TermAtlas.Terminology.Proxy

/-!
# Building

A terminology is built by expanding declarations, laying the expansions out one after the other, and
checking that every proxy leads to a term. All roots of a registry can be built, or one declaration
alone.
-/

namespace TermAtlas

/-- Builds one root for each of the given declarations. References are looked up in `registry`. -/
def Terminology.build (registry : Option Registry) (declarations : List Declaration) :
    Logged Terminology := do
  let forest ← Logged.traverse (fun d => d.expand registry) declarations
  let t := Terminology.ofForest forest
  t.checkLinks
  Logged.notes (t.locations (List.range t.size))
  pure t

/-- Builds the roots of a registry, which is also where references are looked up. -/
def Registry.build (r : Registry) : Logged Terminology := do
  let t ← Terminology.build (some r) r.roots
  Logged.note (.built t.roots.length t.size)
  pure t

/-- Builds a declaration alone. -/
def Declaration.build (d : Declaration) (registry : Option Registry) : Logged Terminology :=
  Terminology.build registry [d]

end TermAtlas
