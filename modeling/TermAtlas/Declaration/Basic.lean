import TermAtlas.Roster
import TermAtlas.Setting.Settings

/-!
# Declarations

A term is declared by its name, its settings and the declarations of its children. Declarations have
an identity, which copies share: a copy that was changed is still recognised as the declaration that
it was copied from.

Three edits change a declaration without changing who it is: giving a key a value, taking a key
away, and adopting a child, in the place of the child that has its name or else last. `descend` finds
a descendant, and `changeAt` changes it in place.
-/

namespace TermAtlas

/-- Who a declaration is. -/
structure Identity where
  number : Nat
  deriving DecidableEq, Inhabited, Repr

/-- The identities other than `id`. -/
def Identity.without (id : Identity) (ids : List Identity) : List Identity := ids.filter (· ≠ id)

@[simp]
theorem Identity.mem_without {id other : Identity} {ids : List Identity} :
    other ∈ id.without ids ↔ other ∈ ids ∧ other ≠ id := by
  simp [without]

theorem Identity.length_without_lt {id : Identity} {ids : List Identity} (h : id ∈ ids) :
    (id.without ids).length < ids.length := by
  rw [without, List.length_filter_lt_length_iff_exists]
  exact ⟨id, h, by simp⟩

/-- What is said about a term. -/
structure Declaration where
  id : Identity
  name : Name
  settings : Settings
  children : List Declaration

namespace Declaration

instance : Named Declaration := ⟨Declaration.name⟩

instance : Inhabited Declaration := ⟨⟨default, default, ∅, []⟩⟩

/-- A declaration that says nothing but a name. -/
def new (id : Identity) (name : Name) : Declaration := ⟨id, name, ∅, []⟩

/-- The child of this name. -/
def child? (d : Declaration) (name : Name) : Option Declaration := Roster.find? name d.children

/-- The descendant along a list of names, or the first name that leads nowhere. -/
def descend : List Name → Declaration → Except Name Declaration
  | [], d => .ok d
  | name :: rest, d =>
    match d.child? name with
    | none => .error name
    | some child => descend rest child

/-- The descendant along a pointer. -/
def descendant? (d : Declaration) (p : Pointer) : Option Declaration :=
  (descend p.segments d).toOption

mutual

/-- The identities of a declaration and its descendants, from the outside in. -/
def identities : Declaration → List Identity
  | ⟨id, _, _, children⟩ => id :: identitiesOfAll children

/-- The identities of some declarations and their descendants. -/
def identitiesOfAll : List Declaration → List Identity
  | [] => []
  | d :: rest => identities d ++ identitiesOfAll rest

end

theorem identities_eq (d : Declaration) : d.identities = d.id :: identitiesOfAll d.children := by
  cases d
  rw [identities]

theorem mem_identitiesOfAll {id : Identity} {all : List Declaration} :
    id ∈ identitiesOfAll all ↔ ∃ d ∈ all, id ∈ d.identities := by
  induction all with
  | nil => simp [identitiesOfAll]
  | cons d rest ih => simp [identitiesOfAll, ih]

theorem id_mem_identities (d : Declaration) : d.id ∈ d.identities := by
  simp [identities_eq]

/-- A child brings no identity that its parent does not have. -/
theorem identities_subset_of_child? {d child : Declaration} {name : Name}
    (h : d.child? name = some child) : child.identities ⊆ d.identities := by
  intro id hid
  rw [identities_eq, List.mem_cons]
  exact .inr (mem_identitiesOfAll.2 ⟨child, Roster.mem_of_find? h, hid⟩)

/-- A descendant brings no identity that is not there above. -/
theorem identities_subset_of_descend {names : List Name} {d target : Declaration}
    (h : descend names d = .ok target) : target.identities ⊆ d.identities := by
  induction names generalizing d with
  | nil =>
    rw [descend, Except.ok.injEq] at h
    subst h
    exact fun _ hid => hid
  | cons name rest ih =>
    rw [descend] at h
    split at h
    · simp at h
    · next child hchild => exact fun _ hid => identities_subset_of_child? hchild (ih h hid)

/-! ### Edits -/

/-- A change to a declaration. -/
inductive Edit where
  /-- Gives a key a value. -/
  | set (key : Setting.Key) (value : Setting.Value)
  /-- Takes a key away. -/
  | unset (key : Setting.Key)
  /-- Adds a child. -/
  | adopt (child : Declaration)

/-- Gives a key a value. -/
def set (d : Declaration) (key : Setting.Key) (value : Setting.Value) : Declaration :=
  { d with settings := d.settings.insert key value }

/-- Takes a key away. -/
def unset (d : Declaration) (key : Setting.Key) : Declaration :=
  { d with settings := d.settings.erase key }

/-- Adds a child, in the place of the one that has its name or else last. -/
def adopt (d child : Declaration) : Declaration :=
  { d with children := Roster.put child d.children }

/-- The declaration after a change. -/
def apply (d : Declaration) : Edit → Declaration
  | .set key value => d.set key value
  | .unset key => d.unset key
  | .adopt child => d.adopt child

/-- The declaration after some changes. -/
def applyAll (d : Declaration) (edits : List Edit) : Declaration := edits.foldl apply d

/-- The declaration with its descendant along a list of names changed, or the first name that leads
nowhere. -/
def changeAt (change : Declaration → Declaration) : List Name → Declaration → Except Name Declaration
  | [], d => .ok (change d)
  | name :: rest, d =>
    match d.child? name with
    | none => .error name
    | some child =>
      match changeAt change rest child with
      | .error missing => .error missing
      | .ok child => .ok (d.adopt child)

@[simp]
theorem name_apply (d : Declaration) (edit : Edit) : (d.apply edit).name = d.name := by
  cases edit <;> rfl

@[simp]
theorem id_apply (d : Declaration) (edit : Edit) : (d.apply edit).id = d.id := by
  cases edit <;> rfl

end Declaration

end TermAtlas
