import TermAtlas.Declaration.Reference

/-!
# What descends to children

Some things are true of a declaration because of its identity and its name, and because they are true of its
children, whose names are apart. Edits and imports keep everything of this kind: a child that is adopted takes
the place of the one that has its name, and one that is imported is only added if its name is new.

## What is proved

* `Hereditary.applyAll`, `Hereditary.changeAt`, `Hereditary.edit` — edits keep what is hereditary.
* `Hereditary.lookup`, `Hereditary.resolve` — it is true of what is found in a registry, and resolving keeps
  it.
* `id_and_name_of_resolve` — resolving changes neither identity nor name.
-/

namespace TermAtlas

/-- `H` is true of a declaration because of its identity and its name, and because it is true of its children,
whose names are apart. -/
structure Hereditary (H : Declaration → Prop) : Prop where
  /-- The names of the children are apart. -/
  nodup : ∀ d, H d → (Roster.names d.children).Nodup
  /-- It is true of the children. -/
  child : ∀ d, H d → ∀ child ∈ d.children, H child
  /-- It stays true with other children of which it is true, and with whatever settings. -/
  change : ∀ d d', H d → d'.id = d.id → d'.name = d.name → (Roster.names d'.children).Nodup →
    (∀ child ∈ d'.children, H child) → H d'

variable {H : Declaration → Prop} {d child target resolved : Declaration} {registry : Option Registry}
  {visited chain siblings more : List Declaration} {names : List Name}

/-! ### Imports -/

namespace Declaration

/-- A chain is empty, or it begins with what is found at the pointer of a reference. -/
theorem chainFrom_cases (h : (chainFrom registry visited d).result = .ok chain) :
    chain = [] ∨ ∃ r p target rest, registry = some r ∧ r.lookup p = .ok target ∧
      chain = target :: rest ∧ (chainFrom registry (target :: visited) target).result = .ok rest := by
  rw [chainFrom] at h
  split at h
  · exact .inl (Except.ok.inj h).symm
  · split at h
    · exact .inl (Except.ok.inj h).symm
    · next pointer _ =>
      split at h
      · cases h
      · next r =>
        split at h
        · cases h
        · next target hlookup =>
          split at h
          · cases h
          · simp only [Logged.result_bind_eq_ok_iff, Logged.result_map_eq_ok_iff] at h
            obtain ⟨-, -, rest, hrest, hchain⟩ := h
            exact .inr ⟨r, pointer, target, rest, rfl, hlookup, hchain.symm, hrest⟩

/-- What is true of all that is found in the registry is true of a chain. -/
theorem forall_mem_of_chainFrom {P : Declaration → Prop}
    (hP : ∀ r p target, registry = some r → r.lookup p = .ok target → P target)
    (h : (chainFrom registry visited d).result = .ok chain) : ∀ target ∈ chain, P target := by
  induction chain generalizing visited d with
  | nil => rintro _ ⟨⟩
  | cons first others ih =>
    rcases chainFrom_cases h with hnil | ⟨r, p, target, rest, hr, hlookup, hchain, hrest⟩
    · cases hnil
    · cases hchain
      exact List.forall_mem_cons.2 ⟨hP r p _ hr hlookup, ih hrest⟩

/-- A child is only added if its name is new. -/
theorem nodup_names_addMissing (h : (Roster.names siblings).Nodup) :
    (Roster.names (addMissing siblings more)).Nodup := by
  unfold addMissing
  induction more generalizing siblings with
  | nil => exact h
  | cons child rest ih =>
    rw [List.foldl_cons]
    refine ih ?_
    cases hfound : Roster.find? child.name siblings with
    | some other => exact h
    | none =>
      have hnew : child.name ∉ Roster.names siblings := Roster.find?_eq_none_iff.1 hfound
      have hput : Roster.put child siblings = siblings ++ [child] := Roster.put_of_not_mem hnew
      dsimp only
      rw [← hput]
      exact Roster.nodup_names_put h

/-- Nothing else is added. -/
theorem mem_or_mem_of_mem_addMissing (h : target ∈ addMissing siblings more) :
    target ∈ siblings ∨ target ∈ more := by
  unfold addMissing at h
  induction more generalizing siblings with
  | nil => exact .inl h
  | cons child rest ih =>
    rw [List.foldl_cons] at h
    rcases ih h with hmem | hmem
    · cases hfound : Roster.find? child.name siblings with
      | some other =>
        rw [hfound] at hmem
        exact .inl hmem
      | none =>
        rw [hfound] at hmem
        rcases List.mem_append.1 hmem with hmem | hmem
        · exact .inl hmem
        · obtain rfl := List.mem_singleton.1 hmem
          exact .inr List.mem_cons_self
    · exact .inr (List.mem_cons_of_mem _ hmem)

/-- A declaration can be resolved exactly if it has a chain, and then it imports along it. -/
theorem resolve_eq_ok_iff : (d.resolve registry).result = .ok resolved ↔
    ∃ chain, (d.chain registry).result = .ok chain ∧ d.importAlong chain = resolved := by
  unfold Declaration.resolve
  rw [Logged.result_bind_eq_ok_iff]
  refine exists_congr fun chain => and_congr_right fun _ => ?_
  split <;> exact ⟨fun h => Except.ok.inj h, fun h => congrArg Except.ok h⟩

/-- Importing along a chain is absorbing it, but for settings. -/
theorem importAlong_eq (d : Declaration) (chain : List Declaration) :
    ∃ settings, d.importAlong chain = { chain.foldl absorb d with settings := settings } := by
  unfold importAlong defaultPath
  split <;> exact ⟨_, rfl⟩

/-- Absorbing a chain changes settings and children only. -/
theorem foldl_absorb_eq (d : Declaration) (chain : List Declaration) : ∃ settings children,
    chain.foldl absorb d = { d with settings := settings, children := children } := by
  induction chain generalizing d with
  | nil =>
    cases d
    exact ⟨_, _, rfl⟩
  | cons target rest ih => exact ih (d.absorb target)

theorem id_and_name_importAlong (d : Declaration) (chain : List Declaration) :
    (d.importAlong chain).id = d.id ∧ (d.importAlong chain).name = d.name := by
  obtain ⟨settings, heq⟩ := d.importAlong_eq chain
  obtain ⟨_, _, hfold⟩ := d.foldl_absorb_eq chain
  rw [heq, hfold]
  exact ⟨rfl, rfl⟩

/-- Resolving a declaration changes neither its identity nor its name. -/
theorem id_and_name_of_resolve (h : (d.resolve registry).result = .ok resolved) :
    resolved.id = d.id ∧ resolved.name = d.name := by
  obtain ⟨chain, -, rfl⟩ := resolve_eq_ok_iff.1 h
  exact d.id_and_name_importAlong chain

end Declaration

namespace Registry

/-- What is true of all roots and of a declaration is true of all roots when the declaration is added. -/
theorem forall_mem_declare {P : Declaration → Prop} {r : Registry} (h : ∀ d ∈ r.roots, P d) (hd : P d) :
    ∀ other ∈ (r.declare d).roots, P other := by
  intro other hother
  rcases Roster.eq_or_mem_of_mem_put hother with rfl | hother
  · exact hd
  · exact h other hother

/-- What starts from a root starts from a declaration of which is true what is true of all roots. -/
theorem forall_of_fromRoot {α : Type} {P : Declaration → Prop} {Q : α → Prop} {r : Registry} {p : Pointer}
    {action : List Name → Declaration → Except Name α} {a : α} (h : ∀ d ∈ r.roots, P d)
    (haction : ∀ names d a, P d → action names d = .ok a → Q a) (hresult : r.fromRoot p action = .ok a) :
    Q a := by
  unfold Registry.fromRoot at hresult
  split at hresult
  · cases hresult
  · next first rest _ =>
    split at hresult
    · cases hresult
    · next root hroot =>
      cases hrest : action rest root with
      | error missing =>
        rw [hrest] at hresult
        cases hresult
      | ok b =>
        rw [hrest] at hresult
        obtain rfl := Except.ok.inj hresult
        exact haction rest root b (h root (Roster.mem_of_find? hroot)) hrest

end Registry

/-! ### What is kept -/

namespace Hereditary

variable (hH : Hereditary H)

include hH

/-- What is said about the term itself does not matter. -/
theorem settings (hd : H d) (settings : Settings) : H { d with settings := settings } :=
  hH.change d _ hd rfl rfl (hH.nodup d hd) (hH.child d hd)

theorem adopt (hd : H d) (hchild : H child) : H (d.adopt child) := by
  refine hH.change d _ hd rfl rfl (Roster.nodup_names_put (hH.nodup d hd)) fun other hother => ?_
  rcases Roster.eq_or_mem_of_mem_put hother with rfl | hother
  · exact hchild
  · exact hH.child d hd other hother

/-- A change keeps what is hereditary, if it is true of a child that is added. -/
theorem apply (hd : H d) {edit : Declaration.Edit} (hedit : ∀ child, edit = .adopt child → H child) :
    H (d.apply edit) := by
  cases edit with
  | set key value => exact hH.settings hd _
  | unset key => exact hH.settings hd _
  | adopt child => exact hH.adopt hd (hedit child rfl)

theorem applyAll (hd : H d) {edits : List Declaration.Edit}
    (hedits : ∀ child, .adopt child ∈ edits → H child) : H (d.applyAll edits) := by
  unfold Declaration.applyAll
  induction edits generalizing d with
  | nil => exact hd
  | cons edit rest ih =>
    have hedit : ∀ child, edit = .adopt child → H child := by
      rintro child rfl
      exact hedits child List.mem_cons_self
    exact ih (hH.apply hd hedit) fun child hchild => hedits child (List.mem_cons_of_mem _ hchild)

/-- It is true of what is found below. -/
theorem descend (hd : H d) (hdescend : Declaration.descend names d = .ok target) : H target := by
  induction names generalizing d with
  | nil =>
    rw [Declaration.descend, Except.ok.injEq] at hdescend
    exact hdescend ▸ hd
  | cons name rest ih =>
    rw [Declaration.descend] at hdescend
    split at hdescend
    · cases hdescend
    · next child hchild => exact ih (hH.child d hd child (Roster.mem_of_find? hchild)) hdescend

/-- A change below keeps it if the change itself does. -/
theorem changeAt (hd : H d) {change : Declaration → Declaration} (hchange : ∀ d, H d → H (change d))
    (hresult : Declaration.changeAt change names d = .ok target) : H target := by
  induction names generalizing d target with
  | nil =>
    rw [Declaration.changeAt, Except.ok.injEq] at hresult
    exact hresult ▸ hchange d hd
  | cons name rest ih =>
    rw [Declaration.changeAt] at hresult
    split at hresult
    · cases hresult
    · next child hchild =>
      split at hresult
      · cases hresult
      · next changed hchanged =>
        obtain rfl := Except.ok.inj hresult
        exact hH.adopt hd (ih (hH.child d hd child (Roster.mem_of_find? hchild)) hchanged)

/-- It is true of what is found in a registry. -/
theorem lookup {r : Registry} (hr : ∀ d ∈ r.roots, H d) {p : Pointer} (hlookup : r.lookup p = .ok d) : H d :=
  Registry.forall_of_fromRoot hr (fun _ _ _ hroot hdescend => hH.descend hroot hdescend) hlookup

/-- Edits of what a registry holds keep it. -/
theorem edit {r changed : Registry} (hr : ∀ d ∈ r.roots, H d) {p : Pointer} {edits : List Declaration.Edit}
    (hedits : ∀ child, .adopt child ∈ edits → H child) (hresult : r.edit p edits = .ok changed) :
    ∀ d ∈ changed.roots, H d := by
  unfold Registry.edit at hresult
  cases hroot : r.fromRoot p (Declaration.changeAt (·.applyAll edits)) with
  | error e =>
    rw [hroot] at hresult
    cases hresult
  | ok root =>
    rw [hroot] at hresult
    obtain rfl := Except.ok.inj hresult
    refine Registry.forall_mem_declare hr (Registry.forall_of_fromRoot hr ?_ hroot)
    intro names d target hd hchanged
    exact hH.changeAt hd (fun _ hd => hH.applyAll hd hedits) hchanged

theorem absorb (hd : H d) (htarget : H target) : H (d.absorb target) := by
  refine hH.change d _ hd rfl rfl (Declaration.nodup_names_addMissing (hH.nodup d hd)) fun child hchild => ?_
  rcases Declaration.mem_or_mem_of_mem_addMissing hchild with hchild | hchild
  · exact hH.child d hd child hchild
  · exact hH.child target htarget child hchild

theorem importAlong (hd : H d) (hchain : ∀ target ∈ chain, H target) : H (d.importAlong chain) := by
  have hfold : H (chain.foldl Declaration.absorb d) := by
    induction chain generalizing d with
    | nil => exact hd
    | cons target rest ih =>
      obtain ⟨htarget, hrest⟩ := List.forall_mem_cons.1 hchain
      exact ih (hH.absorb hd htarget) hrest
  obtain ⟨settings, heq⟩ := d.importAlong_eq chain
  rw [heq]
  exact hH.settings hfold settings

/-- Resolving a declaration keeps it, if it is true of all that the registry holds. -/
theorem resolve (hd : H d) (hregistry : ∀ r, registry = some r → ∀ d ∈ r.roots, H d)
    (hresolve : (d.resolve registry).result = .ok resolved) : H resolved := by
  obtain ⟨chain, hchain, rfl⟩ := Declaration.resolve_eq_ok_iff.1 hresolve
  refine hH.importAlong hd (Declaration.forall_mem_of_chainFrom ?_ hchain)
  exact fun r p target hr hlookup => hH.lookup (hregistry r hr) hlookup

end Hereditary

end TermAtlas
