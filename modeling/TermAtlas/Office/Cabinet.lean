import TermAtlas.Declaration.Registry
import TermAtlas.Office.Folder

/-!
# Cabinets

A cabinet holds the folders of root terms under keys, as a registry holds declarations. A root is put in
under its name, and stays under the key where it was found when something below it changes.
-/

namespace TermAtlas

/-- Folders of root terms under keys. -/
structure Cabinet where
  roots : OrderedMap Name Folder

namespace Cabinet

/-- The cabinet without folders. -/
def empty : Cabinet := ⟨∅⟩

/-- What the cabinet says, without the keys. -/
def contents (c : Cabinet) : Registry :=
  (c.roots.items.map Folder.contents).foldl Registry.declare Registry.empty

/-- The identities of all folders, roots and what is below them. -/
def identities (c : Cabinet) : List Identity :=
  Declaration.identitiesOfAll (c.roots.items.map Folder.contents)

/-- Puts a root in under its name, in the place of the one that is there or else last. -/
def declare (c : Cabinet) (f : Folder) : Cabinet := ⟨c.roots.insert f.name f⟩

/-- Runs `action` on the root that a pointer starts from and the keys below it; says which segment of the
pointer leads nowhere. -/
def fromRoot {α : Type} (c : Cabinet) (p : Pointer) (action : List Name → Folder → Except Name α) :
    Except Error (Name × α) :=
  match p.segments with
  | [] => .error .emptyPointer
  | first :: rest =>
    match c.roots.get? first with
    | none => .error (.noSuchTerm p first)
    | some root => ((action rest root).mapError (Error.noSuchTerm p)).map (first, ·)

/-- The folder at a pointer. -/
def lookup (c : Cabinet) (p : Pointer) : Except Error Folder := (c.fromRoot p Folder.descend).map Prod.snd

/-- The cabinet with the folder at a pointer changed. The root stays under the key that leads to it. -/
def edit (c : Cabinet) (p : Pointer) (edits : List Folder.Edit) : Except Error Cabinet :=
  (c.fromRoot p (Folder.changeAt (·.applyAll edits))).map fun (first, root) => ⟨c.roots.insert first root⟩

/-- What a look-up finds goes down from a root. -/
theorem exists_root_of_lookup {c : Cabinet} {p : Pointer} {target : Folder} (h : c.lookup p = .ok target) :
    ∃ first rest root, p.segments = first :: rest ∧ c.roots.get? first = some root ∧
      Folder.descend rest root = .ok target := by
  rw [lookup, fromRoot] at h
  split at h
  · cases h
  · next first rest hsegments =>
    split at h
    · cases h
    · next root hroot =>
      refine ⟨first, rest, root, hsegments, hroot, ?_⟩
      cases hdescend : Folder.descend rest root with
      | error missing =>
        rw [hdescend] at h
        cases h
      | ok found =>
        rw [hdescend] at h
        exact congrArg Except.ok (Except.ok.inj h)

/-- What is found in a cabinet brings no identity that the cabinet does not have. -/
theorem id_mem_identities_of_lookup {c : Cabinet} {p : Pointer} {target : Folder}
    (h : c.lookup p = .ok target) : target.id ∈ c.identities := by
  obtain ⟨first, rest, root, -, hroot, hdescend⟩ := exists_root_of_lookup h
  have hitem : root.contents ∈ c.roots.items.map Folder.contents :=
    List.mem_map_of_mem (List.mem_map_of_mem (OrderedMap.get?_eq_some_iff.1 hroot))
  refine Declaration.mem_identitiesOfAll.2 ⟨root.contents, hitem, Folder.identities_subset_of_descend hdescend ?_⟩
  rw [← Folder.id_contents]
  exact Declaration.id_mem_identities _

end Cabinet

end TermAtlas
