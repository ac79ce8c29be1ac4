import TermAtlas.Declaration.Basic
import TermAtlas.Error

/-!
# Registries

A registry holds declarations of root terms, in order and under distinct names. A pointer addresses
a declaration in it by going down from a root.
-/

namespace TermAtlas

/-- Declarations of root terms, under distinct names. -/
structure Registry where
  roots : List Declaration
  /-- No two roots have the same name. -/
  distinct : (Roster.names roots).Nodup

namespace Registry

/-- The registry without declarations. -/
def empty : Registry := ⟨[], List.nodup_nil⟩

instance : Inhabited Registry := ⟨empty⟩

/-- Adds a root term, in the place of the one that has its name or else last. -/
def declare (r : Registry) (d : Declaration) : Registry :=
  ⟨Roster.put d r.roots, Roster.nodup_names_put r.distinct⟩

/-- The identities of all declarations, roots and descendants. -/
def identities (r : Registry) : List Identity := Declaration.identitiesOfAll r.roots

/-- Runs `action` on the root that a pointer starts from and the names below it; says which segment
of the pointer leads nowhere. -/
def fromRoot {α : Type} (r : Registry) (p : Pointer)
    (action : List Name → Declaration → Except Name α) : Except Error α :=
  match p.segments with
  | [] => .error .emptyPointer
  | first :: rest =>
    match Roster.find? first r.roots with
    | none => .error (.noSuchTerm p first)
    | some root => (action rest root).mapError (.noSuchTerm p)

/-- The declaration at a pointer. -/
def lookup (r : Registry) (p : Pointer) : Except Error Declaration :=
  r.fromRoot p Declaration.descend

/-- What is found in a registry bears identities of the registry. -/
theorem identities_subset_of_lookup {r : Registry} {p : Pointer} {d : Declaration}
    (h : r.lookup p = .ok d) : d.identities ⊆ r.identities := by
  unfold lookup fromRoot at h
  split at h
  · simp at h
  · next first rest _ =>
    split at h
    · simp at h
    · next root hroot =>
      cases hd : Declaration.descend rest root with
      | error missing =>
        rw [hd] at h
        exact absurd h nofun
      | ok target =>
        rw [hd] at h
        obtain rfl : target = d := Except.ok.inj h
        intro id hid
        exact Declaration.mem_identitiesOfAll.2
          ⟨root, Roster.mem_of_find? hroot, Declaration.identities_subset_of_descend hd hid⟩

/-- The registry with the declaration at a pointer changed. -/
def edit (r : Registry) (p : Pointer) (edits : List Declaration.Edit) : Except Error Registry :=
  (r.fromRoot p (Declaration.changeAt (·.applyAll edits))).map r.declare

end Registry

end TermAtlas
