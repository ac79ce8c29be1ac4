import TermAtlas.Declaration.Registry
import TermAtlas.Logged

/-!
# References

A declaration may refer to another one, which may refer to a third, and so on: its *chain*. Resolving
a declaration imports along the chain, nearest first. What it says itself stays; settings it does not
have are taken over, and children whose names it does not have are added.

A chain that comes back to a declaration it has already been at is an error. As copies share their
identity, it is identities that must not repeat. Each step finds an identity of the registry that is
not on the chain yet, and there are only so many; this is why following a chain ends.
-/

namespace TermAtlas.Declaration

/-- Whether one of some declarations is a copy of `d`, or `d` itself. -/
def isAmong (d : Declaration) (all : List Declaration) : Bool := all.any (·.id = d.id)

/-- The identities of the registry that are not among some declarations. -/
def unvisited (registry : Option Registry) (visited : List Declaration) : List Identity :=
  ((registry.map Registry.identities).getD []).filter fun id => !visited.any (·.id = id)

theorem length_unvisited_lt {r : Registry} {visited : List Declaration} {p : Pointer}
    {target : Declaration} (hfound : r.lookup p = .ok target) (hnew : target.isAmong visited = false) :
    (unvisited (some r) (target :: visited)).length < (unvisited (some r) visited).length := by
  have h : unvisited (some r) (target :: visited) =
      target.id.without (unvisited (some r) visited) := by
    simp only [unvisited, Identity.without, List.filter_filter]
    congr 1
    funext id
    by_cases hid : id = target.id <;> simp [hid, eq_comm]
  rw [h]
  apply Identity.length_without_lt
  have hmem := Registry.identities_subset_of_lookup hfound target.id_mem_identities
  exact List.mem_filter.2 ⟨hmem, by simpa [isAmong] using hnew⟩

/-- The chain from `d` on, given `d` and the declarations that led to it, latest first. -/
def chainFrom (registry : Option Registry) (visited : List Declaration) (d : Declaration) :
    Logged (List Declaration) :=
  match d.settings.get? .reference with
  | none => pure []
  | some value =>
    match value.toPointer? with
    | none => do
      Logged.note (.referenceIgnored d.name value.kind)
      pure []
    | some pointer =>
      match _hregistry : registry with
      | none => Logged.fail (.missingReferenceContext d.name)
      | some r =>
        match _hfound : r.lookup pointer with
        | .error _ => Logged.fail (.badPointer d.name pointer)
        | .ok target =>
          if _hseen : target.isAmong visited then
            Logged.fail (.circularReference ((target :: visited).reverse.map name))
          else do
            Logged.note (.refers d.name target.name pointer)
            (target :: ·) <$> chainFrom registry (target :: visited) target
termination_by (unvisited registry visited).length
decreasing_by
  subst _hregistry
  exact length_unvisited_lt _hfound (by simpa using _hseen)

/-- The declarations that `d` refers to, directly or through others, nearest first. -/
def chain (d : Declaration) (registry : Option Registry) : Logged (List Declaration) :=
  chainFrom registry [d] d

/-! ### Importing -/

/-- The siblings with those of `more` added last whose names are new. -/
def addMissing (siblings more : List Declaration) : List Declaration :=
  more.foldl (fun all child =>
    match Roster.find? child.name all with
    | some _ => all
    | none => all ++ [child]) siblings

/-- `d` with what it does not say itself taken over from `target`. -/
def absorb (d target : Declaration) : Declaration :=
  { d with
    settings := d.settings.onto target.settings
    children := addMissing d.children target.children }

/-- The events of absorbing a chain. -/
def absorbEvents (d : Declaration) : List Declaration → List Event
  | [] => []
  | target :: rest =>
    .merged d.settings.size target.settings.size (d.absorb target).settings.size ::
      absorbEvents (d.absorb target) rest

/-- A declaration without a path gets the name of the last term on its chain as path. -/
def defaultPath (d : Declaration) (chain : List Declaration) : Declaration :=
  match chain.getLast?, d.settings.get? .path with
  | some last, none => d.set .path (.text last.name.text)
  | _, _ => d

/-- `d` after importing along a chain. It refers to nothing any more. -/
def importAlong (d : Declaration) (chain : List Declaration) : Declaration :=
  ((chain.foldl absorb d).defaultPath chain).unset .reference

/-- `d` after importing along its own chain. -/
def resolve (d : Declaration) (registry : Option Registry) : Logged Declaration := do
  let chain ← d.chain registry
  if chain ≠ [] then Logged.note (.resolving d.name (chain.map name))
  Logged.notes (absorbEvents d chain)
  pure (d.importAlong chain)

end TermAtlas.Declaration
