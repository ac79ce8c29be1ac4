import TermAtlas.Proofs.Importing
import TermAtlas.Proofs.Redeclaring
import TermAtlas.Proofs.Ordering

/-!
# Where nodes come from

Every node of a terminology that was built was made of a declaration: a root of one of those that were
built, and a child of a term of one of the children that the declaration of the term has when it is
resolved. Links and declarations go in lockstep here, the first link with the first declaration and so
on; names are not needed, and may be the same.

What a node was made of says everything about it: the declaration was expanded, and the tree that came
of it is what is laid out from the node on, below the term above the node.

## What is proved

* `MadeOf.exists_expandWithin` — what is laid out from a node on is the tree of what it was made of.
* `BuiltFrom.exists_madeOf` — every node was made of something.
* `BuiltFrom.traits_eq` — the traits of a term are read off what it was made of, resolved.
-/

namespace TermAtlas

namespace Terminology

/-- `BuiltFrom registry ds t`: the terminology `t` was built from the declarations `ds`, with references
looked up in `registry`. -/
inductive BuiltFrom : Option Registry → List Declaration → Terminology → Prop where
  /-- From the roots of a registry. -/
  | registry {r : Registry} {t : Terminology} : r.build.result = .ok t → BuiltFrom (some r) r.roots t
  /-- From a declaration alone. -/
  | alone {d : Declaration} {registry : Option Registry} {t : Terminology} :
      (d.build registry).result = .ok t → BuiltFrom registry [d] t

/-- `t.MadeOf registry ds id d`: of the nodes that were built from `ds`, the node `id` was made of `d`. -/
inductive MadeOf (t : Terminology) (registry : Option Registry) (ds : List Declaration) :
    Nat → Declaration → Prop where
  /-- A root was made of the declaration at its place. -/
  | root {k : Nat} {d : Declaration} {link : Link} :
      ds[k]? = some d → t.roots[k]? = some link → MadeOf t registry ds link.node d
  /-- A child was made of the declaration at its place among the children that are there when the
  declaration of the term is resolved. -/
  | child {id k : Nat} {d resolved child : Declaration} {link : Link} :
      MadeOf t registry ds id d → (d.resolve registry).result = .ok resolved →
      resolved.children[k]? = some child → (t.scope (some id))[k]? = some link →
      MadeOf t registry ds link.node child

/-- The term above a node, as a tree is laid out below it. -/
def aboveOf (t : Terminology) (id : Nat) : Option (Nat × XPaths) :=
  (t.parent? id).map fun upper => (upper.id, upper.paths)

variable {t : Terminology} {registry : Option Registry} {ds : List Declaration} {d resolved : Declaration}
  {fresh : List Identity} {names : List Name} {id k start : Nat} {above : Option (Nat × XPaths)}
  {link : Link} {term : Term} {e : Expansion} {es : List Expansion}

theorem BuiltFrom.result (h : BuiltFrom registry ds t) :
    (Terminology.build registry ds).result = .ok t := by
  cases h with
  | registry h => exact Registry.build_eq_ok_iff.1 h
  | alone h => exact h

/-! ### Trees and declarations in lockstep -/

/-- Where some trees are laid out, a link leads to the tree of the declaration at its place. -/
theorem HoldsAll.exists_at {expansion : Declaration → Except Error Expansion}
    (h : t.HoldsAll start above es) (hexpansion : ds.map expansion = es.map Except.ok)
    (hlink : (Expansion.links start es)[k]? = some link) :
    ∃ d e, ds[k]? = some d ∧ expansion d = .ok e ∧ t.Holds link.node above e := by
  have hlinks := rel_getElem? h.forall₂ k
  have hds := rel_getElem? (map_eq_map_ok_iff_forall₂.1 hexpansion) k
  rw [hlink] at hlinks
  generalize es[k]? = tree at hlinks hds
  cases hlinks with
  | @some _ e hholds =>
    generalize hd : ds[k]? = found at hds
    cases hds with
    | @some d _ he => exact ⟨d, e, rfl, he, hholds.2⟩

/-- Of a root the declaration at its place was expanded. -/
theorem exists_root (h : (Terminology.build registry ds).result = .ok t) (hlink : t.roots[k]? = some link) :
    ∃ d e, ds[k]? = some d ∧ (d.expand registry).result = .ok e ∧ t.Holds link.node none e := by
  obtain ⟨forest, hforest, rfl, -⟩ := build_eq_ok_iff.1 h
  exact (holdsAll_ofForest forest).exists_at hforest hlink

/-- Of a child the declaration at its place was expanded, among the children that are there when the
declaration of the term is resolved. -/
theorem Holds.exists_child (h : t.Holds id above e)
    (hexpand : (d.expandWithin registry fresh names).result = .ok e)
    (hlink : (t.scope (some id))[k]? = some link) :
    ∃ resolved child tree term, (d.resolve registry).result = .ok resolved ∧
      resolved.children[k]? = some child ∧
      (child.expandWithin registry (d.id.without fresh) (names ++ [d.name])).result = .ok tree ∧
      t.term? id = some term ∧ term.id = id ∧ t.Holds link.node (some (id, term.paths)) tree := by
  rw [Declaration.result_expandWithin] at hexpand
  split at hexpand
  · obtain ⟨resolved, hresolve, hexpand⟩ := bind_eq_ok_iff.1 hexpand
    cases hpointer : resolved.settings.pointer? .proxy with
    | some pointer =>
      rw [hpointer] at hexpand
      obtain rfl := Except.ok.inj hexpand
      rw [scope, term?, h.proxy] at hlink
      cases hlink
    | none =>
      rw [hpointer] at hexpand
      obtain ⟨children, hchildren, rfl⟩ := Logged.result_map_eq_ok_iff.1 hexpand
      rw [scope_of_term? (term?_of_node? h.term)] at hlink
      obtain ⟨child, tree, hchild, htree, hholds⟩ :=
        h.children.exists_at (Logged.result_traverse_eq_ok_iff.1 hchildren) hlink
      exact ⟨resolved, child, tree, _, hresolve, hchild, htree, term?_of_node? h.term, rfl, hholds⟩
  · cases hexpand

/-! ### What a node was made of -/

/-- The term above a node whose parent is this term. -/
theorem Holds.aboveOf_eq (h : t.Holds start above e) (hupper : ∀ id paths, above = some (id, paths) →
    ∃ term, t.term? id = some term ∧ term.id = id ∧ term.paths = paths) : t.aboveOf start = above := by
  obtain ⟨node, hnode, -, hparent⟩ := h.head
  rw [aboveOf, parent?, hnode, Option.bind_some, hparent]
  cases above with
  | none => rfl
  | some pair =>
    obtain ⟨term, hterm, hid, hpaths⟩ := hupper pair.1 pair.2 rfl
    simp [hterm, hid, hpaths]

/-- What is laid out from a node on is the tree of what the node was made of. -/
theorem MadeOf.exists_expandWithin (h : (Terminology.build registry ds).result = .ok t)
    (hmade : t.MadeOf registry ds id d) : ∃ fresh names e,
      (d.expandWithin registry fresh names).result = .ok e ∧ t.Holds id (t.aboveOf id) e := by
  induction hmade with
  | @root k d link hd hlink =>
    obtain ⟨other, e, hother, hexpand, hholds⟩ := exists_root h hlink
    obtain rfl := Option.some.inj (hd.symm.trans hother)
    have habove := hholds.aboveOf_eq (by rintro _ _ ⟨⟩)
    exact ⟨_, _, e, hexpand, habove.symm ▸ hholds⟩
  | @child id k d resolved child link _ hresolve hchild hlink ih =>
    obtain ⟨fresh, names, e, hexpand, hholds⟩ := ih
    obtain ⟨other, met, tree, term, hother, hmet, htree, hterm, hid, hbelow⟩ := hholds.exists_child hexpand hlink
    obtain rfl := Except.ok.inj (hresolve.symm.trans hother)
    obtain rfl := Option.some.inj (hchild.symm.trans hmet)
    have habove := hbelow.aboveOf_eq (by rintro _ _ ⟨⟩; exact ⟨term, hterm, hid, rfl⟩)
    exact ⟨_, _, tree, htree, habove.symm ▸ hbelow⟩

/-- Every node that the roots lead to was made of something. -/
theorem Linked.exists_madeOf (h : (Terminology.build registry ds).result = .ok t) (hlinked : t.Linked id) :
    ∃ d, t.MadeOf registry ds id d := by
  induction hlinked with
  | @root link hlink =>
    obtain ⟨k, hk⟩ := List.mem_iff_getElem?.1 hlink
    obtain ⟨d, -, hd, -⟩ := exists_root h hk
    exact ⟨d, .root hd hk⟩
  | @child id link _ hlink ih =>
    obtain ⟨d, hmade⟩ := ih
    obtain ⟨fresh, names, e, hexpand, hholds⟩ := hmade.exists_expandWithin h
    obtain ⟨k, hk⟩ := List.mem_iff_getElem?.1 hlink
    obtain ⟨resolved, child, -, -, hresolve, hchild, -⟩ := hholds.exists_child hexpand hk
    exact ⟨child, .child hmade hresolve hchild hk⟩

/-- Every node was made of something. -/
theorem BuiltFrom.exists_madeOf (h : BuiltFrom registry ds t) (hid : id < t.size) :
    ∃ d, t.MadeOf registry ds id d := by
  refine Linked.exists_madeOf h.result ?_
  obtain ⟨forest, -, rfl, -⟩ := build_eq_ok_iff.1 h.result
  exact linked_ofForest forest hid

/-- The traits of a term are read off what the term was made of, once that is resolved. -/
theorem BuiltFrom.traits_eq (h : BuiltFrom registry ds t) (hmade : t.MadeOf registry ds id d)
    (hterm : t.term? id = some term) : ∃ chain, (d.chain registry).result = .ok chain ∧
      (d.importAlong chain).settings.pointer? .proxy = none ∧ term.name = d.name ∧
      term.traits = Traits.ofSettings d.name (d.importAlong chain).settings := by
  obtain ⟨fresh, names, e, hexpand, hholds⟩ := hmade.exists_expandWithin h.result
  cases Declaration.expands_of_expandWithin hexpand with
  | proxy _ _ => cases (node?_of_term? hterm).symm.trans hholds.proxy
  | @term _ resolved children hresolve hpointer _ =>
    obtain ⟨chain, hchain, rfl⟩ := Declaration.resolve_eq_ok_iff.1 hresolve
    obtain rfl := Node.term.inj (Option.some.inj ((node?_of_term? hterm).symm.trans hholds.term))
    exact ⟨chain, hchain, hpointer, rfl, rfl⟩

end Terminology

end TermAtlas
