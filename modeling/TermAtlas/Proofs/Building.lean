import TermAtlas.Proofs.Walk

/-!
# What is built

`Expands` says which tree a declaration stands for, and knows nothing of numbers, of the identities
that may still be expanded, or of what is expanded above. `Shows` says which tree can be read off a
terminology below a node, through the children alone. A registry that can be built stands for one
forest, and this is the one that can be read off what was built.

## What is proved

* `Declaration.Expands.unique`, `Terminology.Shows.unique` — there is at most one tree of each kind.
* `Declaration.expands_of_expandWithin` — what an expansion gives is the tree of the declaration.
* `Terminology.Holds.shows`, `Terminology.Holds.subtree_eq` — a tree that is laid out can be read off
  again, and a walk goes through its places in order.
* `Registry.forest_of_build` — a registry is built as the forest that it stands for.
-/

namespace TermAtlas

namespace Declaration

mutual

/-- `Expands registry d e`: the tree that `d` stands for is `e`. -/
inductive Expands (registry : Option Registry) : Declaration → Expansion → Prop where
  /-- A declaration that forwards somewhere, once it is resolved, is a proxy. -/
  | proxy {d resolved : Declaration} {pointer : Pointer} :
      (d.resolve registry).result = .ok resolved →
      resolved.settings.pointer? .proxy = some pointer →
      Expands registry d (.proxy d.name pointer resolved.settings)
  /-- Any other is a term above the trees of the children that it then has. -/
  | term {d resolved : Declaration} {children : List Expansion} :
      (d.resolve registry).result = .ok resolved →
      resolved.settings.pointer? .proxy = none →
      ExpandsAll registry resolved.children children →
      Expands registry d (.term d.name (Traits.ofSettings d.name resolved.settings) children)

/-- The trees that some declarations stand for, in order. -/
inductive ExpandsAll (registry : Option Registry) : List Declaration → List Expansion → Prop where
  /-- No declarations stand for no trees. -/
  | nil : ExpandsAll registry [] []
  /-- One tree for each declaration. -/
  | cons {d : Declaration} {rest : List Declaration} {e : Expansion} {es : List Expansion} :
      Expands registry d e → ExpandsAll registry rest es → ExpandsAll registry (d :: rest) (e :: es)

end

variable {registry : Option Registry}

mutual

/-- A declaration stands for at most one tree. -/
theorem Expands.unique {d : Declaration} {e other : Expansion} :
    Expands registry d e → Expands registry d other → other = e
  | .proxy hresolve hpointer, h => by
    cases h with
    | proxy hresolve' hpointer' =>
      obtain rfl := Except.ok.inj (hresolve'.symm.trans hresolve)
      rw [Option.some.inj (hpointer'.symm.trans hpointer)]
    | term hresolve' hpointer' _ =>
      obtain rfl := Except.ok.inj (hresolve'.symm.trans hresolve)
      rw [hpointer] at hpointer'
      cases hpointer'
  | .term hresolve hpointer hchildren, h => by
    cases h with
    | proxy hresolve' hpointer' =>
      obtain rfl := Except.ok.inj (hresolve'.symm.trans hresolve)
      rw [hpointer] at hpointer'
      cases hpointer'
    | term hresolve' _ hchildren' =>
      obtain rfl := Except.ok.inj (hresolve'.symm.trans hresolve)
      rw [hchildren.unique hchildren']

/-- Declarations stand for at most one list of trees. -/
theorem ExpandsAll.unique {ds : List Declaration} {es others : List Expansion} :
    ExpandsAll registry ds es → ExpandsAll registry ds others → others = es
  | .nil, h => by
    cases h
    rfl
  | .cons he hes, h => by
    cases h with
    | cons he' hes' => rw [he.unique he', hes.unique hes']

end

/-- Declarations that are expanded one by one stand for the list of their trees. -/
theorem expandsAll_of_map {ds : List Declaration} {es : List Expansion}
    {expansion : Declaration → Except Error Expansion}
    (hone : ∀ d ∈ ds, ∀ e, expansion d = .ok e → Expands registry d e)
    (h : ds.map expansion = es.map Except.ok) : ExpandsAll registry ds es := by
  induction ds generalizing es with
  | nil =>
    cases es with
    | nil => exact .nil
    | cons e rest => cases h
  | cons d rest ih =>
    cases es with
    | nil => cases h
    | cons e es =>
      rw [List.map_cons, List.map_cons, List.cons.injEq] at h
      exact .cons (hone d List.mem_cons_self e h.1)
        (ih (fun d hd => hone d (List.mem_cons_of_mem _ hd)) h.2)

/-- What an expansion gives is the tree of the declaration, whatever may still be expanded. -/
theorem expands_of_expandWithin {fresh : List Identity} {above : List Name} {d : Declaration}
    {e : Expansion} (h : (expandWithin registry fresh above d).result = .ok e) :
    Expands registry d e := by
  induction fresh, above, d using expandWithin.induct generalizing e with
  | case1 fresh above d hfresh ih =>
    rw [expandWithin, dif_pos hfresh, Logged.result_bind_eq_ok_iff] at h
    obtain ⟨resolved, hresolve, h⟩ := h
    cases hpointer : resolved.settings.pointer? .proxy with
    | some pointer =>
      simp only [hpointer, Logged.result_bind_eq_ok_iff, Logged.result_pure, Except.ok.injEq] at h
      obtain ⟨-, -, rfl⟩ := h
      exact .proxy hresolve hpointer
    | none =>
      simp only [hpointer, Logged.result_bind_eq_ok_iff, Logged.result_pure, Except.ok.injEq,
        Logged.result_traverse_eq_ok_iff] at h
      obtain ⟨-, -, -, -, children, hchildren, rfl⟩ := h
      exact .term hresolve hpointer (expandsAll_of_map (fun child _ e he => ih child he) hchildren)
  | case2 fresh above d hfresh =>
    rw [expandWithin, dif_neg hfresh] at h
    cases h

end Declaration

namespace Terminology

mutual

/-- `t.Shows parent id e`: `e` can be read off below the node `id`, which names `parent` as the term
above it. -/
inductive Shows (t : Terminology) : Option Nat → Nat → Expansion → Prop where
  /-- A proxy is read off as it is. -/
  | proxy {parent : Option Nat} {id : Nat} {proxy : Proxy} :
      t.node? id = some (.proxy proxy) → proxy.parent = parent →
      Shows t parent id (.proxy proxy.name proxy.pointer proxy.settings)
  /-- A term is read off with what can be read off through its children. -/
  | term {parent : Option Nat} {id : Nat} {term : Term} {children : List Expansion} :
      t.node? id = some (.term term) → term.parent = parent →
      ShowsAll t (some id) term.children children →
      Shows t parent id (.term term.name term.traits children)

/-- The trees that can be read off through some links, in order; each link has the name of its tree. -/
inductive ShowsAll (t : Terminology) : Option Nat → List Link → List Expansion → Prop where
  /-- Nothing can be read off through no links. -/
  | nil {parent : Option Nat} : ShowsAll t parent [] []
  /-- One tree for each link. -/
  | cons {parent : Option Nat} {link : Link} {rest : List Link} {e : Expansion} {es : List Expansion} :
      link.name = e.name → Shows t parent link.node e → ShowsAll t parent rest es →
      ShowsAll t parent (link :: rest) (e :: es)

end

variable {t : Terminology}

mutual

/-- At most one tree can be read off below a node. -/
theorem Shows.unique {parent : Option Nat} {id : Nat} {e other : Expansion} :
    t.Shows parent id e → t.Shows parent id other → other = e
  | .proxy hnode _, h => by
    cases h with
    | proxy hnode' _ =>
      cases hnode'.symm.trans hnode
      rfl
    | term hnode' _ _ => cases hnode'.symm.trans hnode
  | .term hnode _ hchildren, h => by
    cases h with
    | proxy hnode' _ => cases hnode'.symm.trans hnode
    | term hnode' _ hchildren' =>
      cases hnode'.symm.trans hnode
      rw [hchildren.unique hchildren']

/-- At most one list of trees can be read off through some links. -/
theorem ShowsAll.unique {parent : Option Nat} {links : List Link} {es others : List Expansion} :
    t.ShowsAll parent links es → t.ShowsAll parent links others → others = es
  | .nil, h => by
    cases h
    rfl
  | .cons _ he hes, h => by
    cases h with
    | cons _ he' hes' => rw [he.unique he', hes.unique hes']

end

mutual

/-- A tree that is laid out can be read off again. -/
theorem Holds.shows {e : Expansion} {start : Nat} {above : Option (Nat × XPaths)}
    (h : t.Holds start above e) : t.Shows (above.map (·.1)) start e := by
  cases e with
  | proxy name pointer settings => exact .proxy h.proxy rfl
  | term name traits children => exact .term h.term rfl h.children.shows

/-- Trees that are laid out can be read off again. -/
theorem HoldsAll.shows {es : List Expansion} {start : Nat} {above : Option (Nat × XPaths)}
    (h : t.HoldsAll start above es) :
    t.ShowsAll (above.map (·.1)) (Expansion.links start es) es := by
  cases es with
  | nil => exact .nil
  | cons e rest =>
    obtain ⟨he, hrest⟩ := holdsAll_cons_iff.1 h
    exact .cons rfl he.shows hrest.shows

end

mutual

/-- A walk through a tree goes through its places in order. -/
theorem Holds.subtree_eq {e : Expansion} {start : Nat} {above : Option (Nat × XPaths)}
    (h : t.Holds start above e) (hcoherent : t.Coherent) :
    t.subtree start = List.range' start e.size := by
  cases e with
  | proxy name pointer settings =>
    rw [hcoherent.subtree_eq, scope, term?, h.proxy]
    rfl
  | term name traits children =>
    rw [hcoherent.subtree_eq, scope_of_term? (term?_of_node? h.term), h.children.flatMap_subtree hcoherent,
      Expansion.size, List.range'_succ]

/-- A walk through some trees goes through their places in order. -/
theorem HoldsAll.flatMap_subtree {es : List Expansion} {start : Nat} {above : Option (Nat × XPaths)}
    (h : t.HoldsAll start above es) (hcoherent : t.Coherent) :
    (Expansion.links start es).flatMap (fun link => t.subtree link.node) =
      List.range' start (Expansion.sizeOfAll es) := by
  cases es with
  | nil => rfl
  | cons e rest =>
    obtain ⟨he, hrest⟩ := holdsAll_cons_iff.1 h
    rw [Expansion.links, List.flatMap_cons, he.subtree_eq hcoherent, hrest.flatMap_subtree hcoherent,
      Expansion.sizeOfAll, List.range'_append_1]

end

end Terminology

/-- A registry that can be built stands for one forest. What is built shows this forest and no other
one, has as many nodes as the forest, and is walked in the order of the numbers. -/
theorem Registry.forest_of_build {r : Registry} {t : Terminology} (h : r.build.result = .ok t) :
    ∃ forest, Declaration.ExpandsAll (some r) r.roots forest ∧
      (∀ other, Declaration.ExpandsAll (some r) r.roots other → other = forest) ∧
      t.ShowsAll none t.roots forest ∧
      (∀ other, t.ShowsAll none t.roots other → other = forest) ∧
      Expansion.sizeOfAll forest = t.size ∧ t.walk = List.range t.size := by
  have hcoherent := (Terminology.Reached.built h).coherent
  obtain ⟨forest, hforest, rfl, -⟩ := Terminology.build_eq_ok_iff.1 (build_eq_ok_iff.1 h)
  have hexpands : Declaration.ExpandsAll (some r) r.roots forest :=
    Declaration.expandsAll_of_map
      (fun d _ e he => Declaration.expands_of_expandWithin he) hforest
  have hall := Terminology.holdsAll_ofForest forest
  have hshows := hall.shows
  refine ⟨forest, hexpands, fun _ => hexpands.unique, hshows, fun _ => hshows.unique,
    (Terminology.size_ofForest forest).symm, ?_⟩
  rw [Terminology.walk, List.range_eq_range', Terminology.size_ofForest]
  exact hall.flatMap_subtree hcoherent

/-- The forest of a registry with references and proxies, and the walk through what is built. -/
theorem Terminology.Sample.forest_of_built : Sample.registry.build.result = .ok Sample.built ∧
    ∃ forest, Declaration.ExpandsAll (some Sample.registry) Sample.registry.roots forest ∧
      Sample.built.ShowsAll none Sample.built.roots forest ∧ Expansion.sizeOfAll forest = 11 ∧
      Sample.built.walk = List.range 11 := by
  obtain ⟨forest, hexpands, -, hshows, -, hsize, hwalk⟩ := Registry.forest_of_build Sample.result_build
  have hbuilt : Sample.built.size = 11 := by decide +kernel
  rw [hbuilt] at hsize hwalk
  exact ⟨Sample.result_build, forest, hexpands, hshows, hsize, hwalk⟩

end TermAtlas
