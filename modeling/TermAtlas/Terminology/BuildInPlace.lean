import TermAtlas.Terminology.InPlace

/-!
# Building in place

Declarations can be built on a terminology that is empty at first. They are constructed one after the
other, each root gets its entry when it is there with everything below it, and when all are there the
proxies are checked. Only then paths are derived, from each root down.
-/

namespace TermAtlas

/-- The terminology with an entry for one more root, in the place of the one that has its name or else
last. -/
def Terminology.enterRoot (t : Terminology) (link : Link) : Terminology :=
  { t with roots := Roster.put link t.roots }

/-- Builds `d` as a root, and enters it. -/
def Declaration.constructRoot (registry : Option Registry) (d : Declaration) : Work Unit := do
  let known := (registry.map Registry.identities).getD []
  let id ← constructWithin registry none (d.identities ++ known) [] d
  Work.change (·.enterRoot ⟨d.name, id⟩)

/-- Builds the nodes of one root for each of the given declarations, and checks that every node stands
for a term. -/
def Work.construct (registry : Option Registry) (declarations : List Declaration) : Work Unit := do
  forEach (Declaration.constructRoot registry) declarations
  checkLinks

/-- Builds one root for each of the given declarations in place, if that comes to an end. -/
def Terminology.buildInPlace (registry : Option Registry) (declarations : List Declaration) :
    Part (Logged Terminology) :=
  ((Work.construct registry declarations).thenUnwind (fun _ t => t.roots.map Link.node) default).map
    fun (done, t) => (fun _ => t) <$> done

/-- Builds the roots of a registry in place, if that comes to an end. -/
def Registry.buildInPlace (r : Registry) : Part (Logged Terminology) :=
  (Terminology.buildInPlace (some r) r.roots).map fun built => do
    let t ← built
    Logged.note (.built t.roots.length t.size)
    pure t

/-- Builds a declaration alone in place, if that comes to an end. -/
def Declaration.buildInPlace (d : Declaration) (registry : Option Registry) : Part (Logged Terminology) :=
  Terminology.buildInPlace registry [d]

end TermAtlas
