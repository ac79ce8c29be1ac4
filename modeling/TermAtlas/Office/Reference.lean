import TermAtlas.Declaration.Reference
import TermAtlas.Office.Cabinet

/-!
# References between folders

The chain of a folder leads through a cabinet as that of a declaration leads through a registry. What is
imported along it comes under the keys that it has where it comes from, unless there is a child under the
same key already.
-/

namespace TermAtlas.Folder

/-- The identities of a cabinet that are not among those of some folders. -/
def unvisited (c : Cabinet) (visited : List Folder) : List Identity :=
  c.identities.filter fun id => !visited.any (·.id = id)

theorem length_unvisited_lt {c : Cabinet} {visited : List Folder} {p : Pointer} {target : Folder}
    (hfound : c.lookup p = .ok target) (hnew : ¬ visited.any (·.id = target.id)) :
    (unvisited c (target :: visited)).length < (unvisited c visited).length := by
  have h : unvisited c (target :: visited) = target.id.without (unvisited c visited) := by
    simp only [unvisited, Identity.without, List.filter_filter]
    congr 1
    funext id
    by_cases hid : id = target.id <;> simp [hid, eq_comm]
  rw [h]
  apply Identity.length_without_lt
  exact List.mem_filter.2 ⟨Cabinet.id_mem_identities_of_lookup hfound, by simpa using hnew⟩

/-- The chain from `f` on, given `f` and the folders that led to it, latest first. -/
def chainFrom (c : Cabinet) (visited : List Folder) (f : Folder) : Except Error (List Folder) :=
  match f.settings.pointer? .reference with
  | none => .ok []
  | some pointer =>
    match _hfound : c.lookup pointer with
    | .error _ => .error (.badPointer f.name pointer)
    | .ok target =>
      if _hseen : visited.any (·.id = target.id) then
        .error (.circularReference ((target :: visited).reverse.map name))
      else (chainFrom c (target :: visited) target).map (target :: ·)
termination_by (unvisited c visited).length
decreasing_by exact length_unvisited_lt _hfound _hseen

/-- The folders that `f` refers to, directly or through others, nearest first. A reference needs a cabinet
where it leads to something. -/
def chain (f : Folder) : Option Cabinet → Except Error (List Folder)
  | some c => chainFrom c [f] f
  | none =>
    match f.settings.pointer? .reference with
    | none => .ok []
    | some _ => .error (.missingReferenceContext f.name)

/-! ### Importing -/

/-- The siblings with those of `more` added under the keys that they have there, unless a key is taken. -/
def addMissing (siblings more : OrderedMap Name Folder) : OrderedMap Name Folder :=
  more.entries.foldl (fun all entry =>
    if all.contains entry.1 then all else all.insert entry.1 entry.2) siblings

/-- `f` with what it does not say itself taken over from `target`. -/
def absorb (f target : Folder) : Folder :=
  (f.withSettings (f.settings.onto target.settings)).withChildren (addMissing f.children target.children)

/-- A folder without a path gets the name of the last term on its chain as path. -/
def defaultPath (f : Folder) (chain : List Folder) : Folder :=
  match chain.getLast?, f.settings.get? .path with
  | some last, none => f.set .path (.text last.name.text)
  | _, _ => f

/-- `f` after importing along a chain. It refers to nothing any more. -/
def importAlong (f : Folder) (chain : List Folder) : Folder :=
  ((chain.foldl absorb f).defaultPath chain).unset .reference

/-- `f` after importing along its own chain. -/
def resolve (f : Folder) (registry : Option Cabinet) : Except Error Folder :=
  (f.chain registry).map f.importAlong

end TermAtlas.Folder
