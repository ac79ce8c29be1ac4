import TermAtlas.Proofs.Nesting

/-!
# Plain declarations

A declaration is plain when neither it nor one below it has a reference. Nothing is imported into it, so
that its tree can be read off as it is declared, its *outline*; and whether it can be expanded depends on
identities alone: none may come back below itself.

Adopting a declaration somewhere below a plain one changes the outline in the same place, and
whether everything can be expanded then depends on the adopted declaration alone, as long as it brings
identities of its own.

## What is proved

* `Plain.expand_eq_ok_iff` — what a plain declaration is expanded as, and when.
* `Runs.forall_adoptAt_unrepeated_iff` — adopting keeps everything expandable if and only if what is adopted
  is.
* `Registry.Plain.build_eq_ok_iff` — what a plain registry is built as, and when.
* `Runs.exists_edit` — an edit at a pointer adopts along its names.
-/

namespace TermAtlas

namespace Declaration

/-- Neither the declaration nor one below it has a reference. -/
inductive Plain : Declaration → Prop where
  /-- There is no reference here, nor below. -/
  | intro {d : Declaration} : d.settings.get? .reference = none → (∀ child ∈ d.children, Plain child) →
      Plain d

mutual

/-- The tree of a declaration into which nothing is imported. -/
def outline : Declaration → Expansion
  | ⟨_, name, settings, children⟩ =>
    match settings.pointer? .proxy with
    | some pointer => .proxy name pointer settings
    | none => .term name (Traits.ofSettings name settings) (outlines children)

/-- The trees of some declarations into which nothing is imported. -/
def outlines : List Declaration → List Expansion
  | [] => []
  | d :: rest => outline d :: outlines rest

end

/-- Going down from `d`, given the identities above it, no identity comes twice; below a proxy nothing
is built. -/
inductive Unrepeated : List Identity → Declaration → Prop where
  /-- The identity here is not above, and the children of a term go on from there. -/
  | intro {above : List Identity} {d : Declaration} : d.id ∉ above →
      (d.settings.pointer? .proxy = none → ∀ child ∈ d.children, Unrepeated (d.id :: above) child) →
      Unrepeated above d

/-- The names run from child to child, through declarations that are terms when they are plain. -/
inductive Runs : List Name → List Declaration → Prop where
  /-- There are no names left. -/
  | nil {ds : List Declaration} : Runs [] ds
  /-- The first name is found, and the others run through its children. -/
  | cons {name : Name} {names : List Name} {ds : List Declaration} {d : Declaration} :
      Roster.find? name ds = some d → d.settings.pointer? .proxy = none → Runs names d.children →
      Runs (name :: names) ds

/-- The declarations with `c` adopted along some names. -/
def adoptAt (c : Declaration) : List Name → List Declaration → List Declaration
  | [], ds => Roster.put c ds
  | name :: names, ds =>
    match Roster.find? name ds with
    | none => ds
    | some d => Roster.put { d with children := adoptAt c names d.children } ds

variable {d c child : Declaration} {ds : List Declaration} {e : Expansion} {es : List Expansion}
  {registry : Option Registry} {fresh above other : List Identity} {names : List Name} {name : Name}

/-! ### Outlines -/

instance : Named Expansion := ⟨Expansion.name⟩

theorem Plain.reference (h : d.Plain) : d.settings.get? .reference = none := by
  cases h with
  | intro href _ => exact href

theorem Plain.of_mem (h : d.Plain) (hchild : child ∈ d.children) : child.Plain := by
  cases h with
  | intro _ hchildren => exact hchildren child hchild

@[simp]
theorem plain_mk_iff {id : Identity} {name : Name} {settings : Settings} {children : List Declaration} :
    Plain ⟨id, name, settings, children⟩ ↔
      settings.get? .reference = none ∧ ∀ child ∈ children, child.Plain := by
  constructor
  · intro h
    exact ⟨h.reference, fun child hchild => h.of_mem hchild⟩
  · rintro ⟨href, hchildren⟩
    exact .intro href hchildren

theorem outlines_eq_map (ds : List Declaration) : outlines ds = ds.map outline := by
  induction ds with
  | nil => rfl
  | cons d rest ih => rw [outlines, ih, List.map_cons]

theorem outline_of_proxy {pointer : Pointer} (h : d.settings.pointer? .proxy = some pointer) :
    d.outline = .proxy d.name pointer d.settings := by
  obtain ⟨id, name, settings, children⟩ := d
  rw [outline]
  simp only [h]

theorem outline_of_term (h : d.settings.pointer? .proxy = none) :
    d.outline = .term d.name (Traits.ofSettings d.name d.settings) (d.children.map outline) := by
  obtain ⟨id, name, settings, children⟩ := d
  rw [outline, ← outlines_eq_map]
  simp only [h]

theorem name_outline (d : Declaration) : d.outline.name = d.name := by
  cases hpointer : d.settings.pointer? .proxy with
  | some pointer => rw [outline_of_proxy hpointer, Expansion.name]
  | none => rw [outline_of_term hpointer, Expansion.name]

/-! ### Expanding -/

/-- A plain declaration is resolved as it is. -/
theorem Plain.resolve (h : d.Plain) : (d.resolve registry).result = .ok d := by
  refine resolve_eq_ok_iff.2 ⟨[], ?_, ?_⟩
  · rw [chain, chainFrom]
    split
    · rfl
    · next value hvalue =>
      rw [h.reference] at hvalue
      cases hvalue
  · have hpath : d.defaultPath [] = d := by
      unfold defaultPath
      split
      · next last hlast _ => cases hlast
      · rfl
    rw [importAlong, List.foldl_nil, hpath, unset, OrderedMap.erase_of_get?_eq_none h.reference]
    cases d
    rfl

theorem unrepeated_iff : Unrepeated above d ↔ d.id ∉ above ∧
    (d.settings.pointer? .proxy = none → ∀ child ∈ d.children, Unrepeated (d.id :: above) child) := by
  constructor
  · rintro ⟨hid, hchildren⟩
    exact ⟨hid, hchildren⟩
  · rintro ⟨hid, hchildren⟩
    exact .intro hid hchildren

/-- What is expanded one by one, each under its condition, is expanded if all conditions hold. -/
theorem map_eq_map_ok_iff {expansion : Declaration → Except Error Expansion} {P : Declaration → Prop}
    (h : ∀ d ∈ ds, ∀ e, expansion d = .ok e ↔ P d ∧ d.outline = e) :
    ds.map expansion = es.map Except.ok ↔ (∀ d ∈ ds, P d) ∧ ds.map outline = es := by
  induction ds generalizing es with
  | nil => cases es <;> simp
  | cons d rest ih =>
    have hrest : ∀ es, rest.map expansion = es.map Except.ok ↔ (∀ d ∈ rest, P d) ∧ rest.map outline = es :=
      fun es => ih fun d hd => h d (List.mem_cons_of_mem _ hd)
    cases es with
    | nil => simp
    | cons e es =>
      rw [List.map_cons, List.map_cons, List.map_cons, List.cons.injEq, List.cons.injEq, hrest,
        h d List.mem_cons_self, List.forall_mem_cons]
      exact ⟨fun ⟨⟨hd, he⟩, hds, hes⟩ => ⟨⟨hd, hds⟩, he, hes⟩,
        fun ⟨⟨hd, hds⟩, he, hes⟩ => ⟨⟨hd, he⟩, hds, hes⟩⟩

/-- What may still be expanded below a declaration are the identities that are not there above. -/
theorem mem_without_iff_of_child (hfresh : ∀ id ∈ d.identities, id ∈ fresh ↔ id ∉ above)
    (hchild : child ∈ d.children) :
    ∀ id ∈ child.identities, id ∈ d.id.without fresh ↔ id ∉ d.id :: above := by
  intro id hid
  rw [Identity.mem_without, hfresh id (identities_subset_of_child hchild hid), List.mem_cons, not_or, and_comm]

/-- Whether a plain declaration can be expanded is decided by identities. -/
theorem Plain.expandWithin_eq_ok_iff (h : d.Plain)
    (hfresh : ∀ id ∈ d.identities, id ∈ fresh ↔ id ∉ above) :
    (expandWithin registry fresh names d).result = .ok e ↔ Unrepeated above d ∧ d.outline = e := by
  induction fresh, names, d using expandWithin.induct generalizing above e with
  | case1 fresh names d hid ih =>
    have hnew : d.id ∉ above := (hfresh _ d.id_mem_identities).1 hid
    rw [expandWithin, dif_pos hid, Logged.result_bind_eq_ok_iff, unrepeated_iff, and_iff_right hnew]
    simp only [h.resolve, Except.ok.injEq, exists_eq_left']
    cases hpointer : d.settings.pointer? .proxy with
    | some pointer =>
      simp only [Logged.result_bind_eq_ok_iff, Logged.result_note, Logged.result_pure,
        Except.ok.injEq, outline_of_proxy hpointer]
      simp
    | none =>
      have hchildren : ∀ child ∈ d.children, ∀ e,
          (expandWithin registry (d.id.without fresh) (names ++ [d.name]) child).result = .ok e ↔
            Unrepeated (d.id :: above) child ∧ child.outline = e :=
        fun child hchild e => ih child (h.of_mem hchild) (mem_without_iff_of_child hfresh hchild)
      simp only [Logged.result_bind_eq_ok_iff, Logged.result_note, Logged.result_notes,
        Logged.result_pure, Except.ok.injEq, Logged.result_traverse_eq_ok_iff,
        map_eq_map_ok_iff hchildren, outline_of_term hpointer]
      constructor
      · rintro ⟨-, -, -, -, children, ⟨hall, rfl⟩, rfl⟩
        exact ⟨fun _ => hall, rfl⟩
      · rintro ⟨hall, rfl⟩
        exact ⟨(), trivial, (), trivial, _, ⟨hall trivial, rfl⟩, rfl⟩
  | case2 fresh names d hid =>
    have hseen : ¬ d.id ∉ above := fun hnew => hid ((hfresh _ d.id_mem_identities).2 hnew)
    rw [expandWithin, dif_neg hid, unrepeated_iff]
    simp [hseen]

/-- A plain declaration can be expanded if no identity comes back below itself, and gives its outline. -/
theorem Plain.expand_eq_ok_iff (h : d.Plain) :
    (d.expand registry).result = .ok e ↔ Unrepeated [] d ∧ d.outline = e := by
  refine h.expandWithin_eq_ok_iff fun id hid => ?_
  simp [hid]

/-! ### Adopting -/

theorem named_outline (d : Declaration) : Named.name d.outline = Named.name d := name_outline d

theorem outline_adopt_children (hpointer : d.settings.pointer? .proxy = none) (children : List Declaration) :
    outline { d with children := children } =
      .term d.name (Traits.ofSettings d.name d.settings) (children.map outline) :=
  outline_of_term hpointer

/-- Whether no identity comes twice depends on the identities that there are below. -/
theorem Unrepeated.congr (h : Unrepeated above d) (hagree : ∀ id ∈ d.identities, id ∈ other → id ∈ above) :
    Unrepeated other d := by
  induction h generalizing other with
  | @intro above d hid hchildren ih =>
    refine .intro (fun hmem => hid (hagree _ d.id_mem_identities hmem)) fun hpointer child hchild => ?_
    refine ih hpointer child hchild fun id hmem hother => ?_
    rcases List.mem_cons.1 hother with rfl | hother
    · exact List.mem_cons_self
    · exact List.mem_cons_of_mem _ (hagree id (identities_subset_of_child hchild hmem) hother)

theorem Plain.mem_adoptAt (hc : c.Plain) (hds : ∀ d ∈ ds, d.Plain) :
    ∀ d ∈ adoptAt c names ds, d.Plain := by
  induction names generalizing ds with
  | nil =>
    intro d hd
    rcases Roster.eq_or_mem_of_mem_put hd with rfl | hd
    · exact hc
    · exact hds d hd
  | cons name names ih =>
    intro d hd
    rw [adoptAt] at hd
    split at hd
    · exact hds d hd
    · next found hfound =>
      have hplain := hds found (Roster.mem_of_find? hfound)
      rcases Roster.eq_or_mem_of_mem_put hd with rfl | hd
      · exact .intro hplain.reference (ih fun child hchild => hplain.of_mem hchild)
      · exact hds d hd

/-- Adopting a declaration with identities of its own repeats none, unless the declaration itself does. -/
theorem Runs.forall_adoptAt_unrepeated_iff (h : Runs names ds) (hds : ∀ d ∈ ds, Unrepeated above d)
    (habove : ∀ id ∈ c.identities, id ∉ above) (hown : ∀ id ∈ c.identities, id ∉ identitiesOfAll ds) :
    (∀ d ∈ adoptAt c names ds, Unrepeated above d) ↔ Unrepeated [] c := by
  induction h generalizing above with
  | nil =>
    constructor
    · intro hall
      exact (hall c (Roster.mem_put_self c _)).congr fun id _ hid => absurd hid List.not_mem_nil
    · intro hc d hd
      rcases Roster.eq_or_mem_of_mem_put hd with rfl | hd
      · exact hc.congr fun id hid hmem => absurd hmem (habove id hid)
      · exact hds d hd
  | @cons name names ds d hfound hpointer _ ih =>
    have hmem := Roster.mem_of_find? hfound
    obtain ⟨hid, hchildren⟩ := unrepeated_iff.1 (hds d hmem)
    have hsub : d.identities ⊆ identitiesOfAll ds := identities_subset_of_mem hmem
    have habove' : ∀ id ∈ c.identities, id ∉ d.id :: above := by
      intro id hc hcons
      rcases List.mem_cons.1 hcons with rfl | hcons
      · exact hown _ hc (hsub d.id_mem_identities)
      · exact habove id hc hcons
    have hown' : ∀ id ∈ c.identities, id ∉ identitiesOfAll d.children := by
      intro id hc hbelow
      refine hown id hc (hsub ?_)
      rw [identities_eq]
      exact List.mem_cons_of_mem _ hbelow
    rw [← ih (hchildren hpointer) habove' hown', adoptAt, hfound]
    constructor
    · intro hall
      have hd := hall _ (Roster.mem_put_self { d with children := adoptAt c names d.children } ds)
      exact (unrepeated_iff.1 hd).2 hpointer
    · intro hall other hother
      rcases Roster.eq_or_mem_of_mem_put hother with rfl | hother
      · exact .intro hid fun _ => hall
      · exact hds other hother

/-- A change of a descendant adopts along the names, if they run through the children. -/
theorem Runs.changeAt_eq (h : Runs names d.children) (c : Declaration) :
    changeAt (·.applyAll [.adopt c]) names d = .ok { d with children := adoptAt c names d.children } := by
  induction names generalizing d with
  | nil => rfl
  | cons name names ih =>
    cases h with
    | @cons _ _ _ child hfound _ hrest =>
      have hchild : d.child? name = some child := hfound
      rw [changeAt, hchild]
      simp only [ih hrest, adoptAt, hfound]
      rfl

/-- An edit at a pointer adopts along its names. -/
theorem Runs.exists_edit {r : Registry} {p : Pointer} (h : Runs p.segments r.roots) (hp : p.segments ≠ [])
    (c : Declaration) :
    ∃ r', r.edit p [.adopt c] = .ok r' ∧ r'.roots = adoptAt c p.segments r.roots := by
  obtain ⟨segments⟩ := p
  cases h with
  | nil => exact absurd rfl hp
  | @cons name names _ root hfound _ hrest =>
    refine ⟨r.declare { root with children := adoptAt c names root.children }, ?_, ?_⟩
    · rw [Registry.edit, Registry.fromRoot]
      simp only [hfound, hrest.changeAt_eq c]
      rfl
    · show Roster.put _ r.roots = adoptAt c (name :: names) r.roots
      rw [adoptAt, hfound]

end Declaration

/-- Neither the roots nor the declarations below them have references. -/
def Registry.Plain (r : Registry) : Prop := ∀ d ∈ r.roots, d.Plain

/-- A plain registry can be built if no identity comes back below itself and all proxies lead to terms. -/
theorem Registry.Plain.build_eq_ok_iff {r : Registry} (h : r.Plain) {t : Terminology} :
    r.build.result = .ok t ↔ (∀ d ∈ r.roots, Declaration.Unrepeated [] d) ∧
      t = Terminology.ofForest (r.roots.map Declaration.outline) ∧ t.checkLinks.result = .ok () := by
  have hforest : ∀ forest : List Expansion,
      r.roots.map (fun d => (d.expand (some r)).result) = forest.map Except.ok ↔
        (∀ d ∈ r.roots, Declaration.Unrepeated [] d) ∧ r.roots.map Declaration.outline = forest :=
    fun forest => Declaration.map_eq_map_ok_iff fun d hd e => (h d hd).expand_eq_ok_iff
  rw [Registry.build_eq_ok_iff, Terminology.build_eq_ok_iff]
  simp only [hforest]
  constructor
  · rintro ⟨_, ⟨hall, rfl⟩, ht, hlinks⟩
    exact ⟨hall, ht, hlinks⟩
  · rintro ⟨hall, ht, hlinks⟩
    exact ⟨_, ⟨hall, rfl⟩, ht, hlinks⟩

end TermAtlas
