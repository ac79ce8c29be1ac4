import TermAtlas.Declaration.Basic

/-!
# Families

The family of a declaration is the declaration itself with all that lie below it, each before those below
it. What children take over from their parents is found in the whole family.

## What is proved

* `mem_family_iff` — who belongs to a family.
* `of_mem_family` — what children take over holds in the family.
* `family_subset` — a family contains the families of its members.
* `map_id_family` — the identities of a family are those of the declaration.
-/

namespace TermAtlas.Declaration

mutual

/-- A declaration and its descendants, from the outside in. -/
def family : Declaration → List Declaration
  | ⟨id, name, settings, children⟩ => ⟨id, name, settings, children⟩ :: familyOfAll children

/-- Some declarations and their descendants, from the outside in. -/
def familyOfAll : List Declaration → List Declaration
  | [] => []
  | d :: rest => family d ++ familyOfAll rest

end

variable {d x : Declaration} {ds : List Declaration}

theorem family_eq (d : Declaration) : d.family = d :: familyOfAll d.children := by
  cases d
  rw [family]

theorem mem_familyOfAll : x ∈ familyOfAll ds ↔ ∃ d ∈ ds, x ∈ d.family := by
  induction ds with
  | nil => simp [familyOfAll]
  | cons d rest ih => simp [familyOfAll, ih]

@[simp]
theorem self_mem_family (d : Declaration) : d ∈ d.family := by
  simp [family_eq]

/-- A family consists of the declaration and the families of its children. -/
theorem mem_family_iff : x ∈ d.family ↔ x = d ∨ ∃ child ∈ d.children, x ∈ child.family := by
  rw [family_eq, List.mem_cons, mem_familyOfAll]

section Heredity

variable {P : Declaration → Prop}

mutual

/-- What children take over from their parents holds in the family. -/
theorem of_mem_family (hP : ∀ d child : Declaration, P d → child ∈ d.children → P child) {d : Declaration}
    (hd : P d) (hx : x ∈ d.family) : P x := by
  cases d with
  | mk id name settings children =>
    rw [family, List.mem_cons] at hx
    rcases hx with rfl | hx
    · exact hd
    · exact of_mem_familyOfAll hP (fun child hchild => hP _ child hd hchild) hx

theorem of_mem_familyOfAll (hP : ∀ d child : Declaration, P d → child ∈ d.children → P child)
    {ds : List Declaration} (hds : ∀ d ∈ ds, P d) (hx : x ∈ familyOfAll ds) : P x := by
  cases ds with
  | nil => cases hx
  | cons d rest =>
    obtain ⟨hd, hrest⟩ := List.forall_mem_cons.1 hds
    rw [familyOfAll, List.mem_append] at hx
    rcases hx with hx | hx
    · exact of_mem_family hP hd hx
    · exact of_mem_familyOfAll hP hrest hx

end

end Heredity

/-- A family contains the families of its members. -/
theorem family_subset (h : x ∈ d.family) : x.family ⊆ d.family := by
  refine of_mem_family (P := fun x => x.family ⊆ d.family) (fun above child habove hchild => ?_)
    (List.Subset.refl _) h
  exact fun y hy => habove (mem_family_iff.2 (.inr ⟨child, hchild, hy⟩))

theorem mem_familyOfAll_of_child {child : Declaration} (h : d ∈ familyOfAll ds) (hchild : child ∈ d.children) :
    child ∈ familyOfAll ds := by
  obtain ⟨root, hroot, hd⟩ := mem_familyOfAll.1 h
  exact mem_familyOfAll.2
    ⟨root, hroot, family_subset hd (mem_family_iff.2 (.inr ⟨child, hchild, self_mem_family child⟩))⟩

/-- With more declarations there is more in their families. -/
theorem familyOfAll_subset {es : List Declaration} (h : ds ⊆ es) : familyOfAll ds ⊆ familyOfAll es := by
  intro x hx
  obtain ⟨d, hd, hxd⟩ := mem_familyOfAll.1 hx
  exact mem_familyOfAll.2 ⟨d, h hd, hxd⟩

mutual

theorem map_id_family (d : Declaration) : d.family.map id = d.identities := by
  cases d with
  | mk number name settings children => rw [family, List.map_cons, map_id_familyOfAll, identities]

theorem map_id_familyOfAll (ds : List Declaration) : (familyOfAll ds).map id = identitiesOfAll ds := by
  cases ds with
  | nil => rfl
  | cons d rest =>
    rw [familyOfAll, List.map_append, map_id_family, map_id_familyOfAll, identitiesOfAll]

end

end TermAtlas.Declaration
