import TermAtlas.Proofs.Building
import TermAtlas.Proofs.Detached
import TermAtlas.Proofs.Mirroring

/-!
# Renumbering

The number of a node is its place, and places depend on the order in which nodes were built. Two
terminologies that were built in different orders can still be the same but for numbers: the roots, and
all that they lead to, agree when the numbers of the one are replaced by those of the other. Detached
nodes do not matter. The terminologies then mirror each other in what the roots lead to, so proxies fail in
the one exactly if they fail in the other.

Whatever shows the same trees is the same but for numbers: the walks through both go through the same
places of the trees, and the paths of a term follow from where it is.

## What is proved

* `Renumbers.mirrors` — numbers do not matter to looking up.
* `Shows.renumber` — a node that shows a tree is the same as where the tree is laid out, but for numbers.
* `Arranged.renumbers_ofForest`, `Arranged.checkLinks_ofForest_iff` — so is a terminology that shows a
  forest, and its proxies stand for terms if those of the forest do.
* `Arranged.exists_renumbering` — the same, said about the walks through both.
-/

namespace TermAtlas

namespace Terminology

/-- All that the roots of `t` lead to is the same in `t'` but for numbers, which `ρ` replaces. -/
structure Renumbers (ρ : Nat → Nat) (t t' : Terminology) : Prop where
  /-- The roots are the same. -/
  roots : t'.roots = t.roots.map (Link.renumber ρ)
  /-- Each node is the same. -/
  node : ∀ id, t.Linked id → t'.node? (ρ id) = (t.node? id).map (Node.renumber ρ)
  /-- Different nodes keep different numbers. -/
  injective : ∀ id other, t.Linked id → t.Linked other → ρ id = ρ other → id = other

variable {ρ : Nat → Nat} {t t' : Terminology} {scope parent : Option Nat} {id start : Nat}
  {inProgress : List Nat} {above : Option (Nat × XPaths)} {e : Expansion} {es : List Expansion}

/-! ### Looking up -/

theorem Renumbers.node_eq (h : t.Renumbers ρ t') (hid : t.Linked id) {node : Node}
    (hnode : t.node? id = some node) : t'.node? (ρ id) = some (node.renumber ρ) := by
  rw [h.node id hid, hnode]
  rfl

theorem Renumbers.scope_eq (h : t.Renumbers ρ t') (hscope : t.InReach scope) :
    t'.scope (scope.map ρ) = (t.scope scope).map (Link.renumber ρ) := by
  cases scope with
  | none => exact h.roots
  | some id =>
    rw [Option.map_some, scope, scope, term?, term?, h.node id hscope]
    cases t.node? id with
    | none => rfl
    | some node => cases node <;> rfl

theorem Renumbers.child?_eq (h : t.Renumbers ρ t') (hscope : t.InReach scope) (name : Name) :
    t'.child? (scope.map ρ) name = (t.child? scope name).map ρ := by
  rw [child?, child?, h.scope_eq hscope, Roster.find?_map (named_renumber ρ), Option.map_map, Option.map_map]
  rfl

theorem linked_of_child? (hscope : t.InReach scope) {name : Name} {next : Nat}
    (hchild : t.child? scope name = some next) : t.Linked next := by
  obtain ⟨link, hlink, -, rfl⟩ := exists_link_of_child? hchild
  cases scope with
  | none => exact .root hlink
  | some id => exact .child hscope hlink

/-- What the roots lead to looks the same. -/
theorem Renumbers.mirrors (h : t.Renumbers ρ t') (harranged : t.Arranged) :
    t.Mirrors ρ t.InReach t' where
  node id hid := by
    obtain ⟨node, hnode⟩ := Linked.exists_node? hid harranged
    rw [h.node_eq hid hnode, hnode]
    exact .some (node.mirrors_renumber ρ)
  missing id hid hnone := by
    obtain ⟨node, hnode⟩ := Linked.exists_node? hid harranged
    cases hnode.symm.trans hnone
  root hroots name := h.child?_eq hroots name
  below _ _ _ hscope hchild := linked_of_child? hscope hchild
  above _ _ hid hnode := Linked.inReach hid harranged hnode
  injective := h.injective

/-! ### The same trees -/

mutual

/-- Below a node are as many nodes as the tree has that it shows. -/
theorem Shows.length_subtree (h : t.Arranged) {e : Expansion} {parent : Option Nat} {id : Nat} :
    t.Shows parent id e → (t.subtree id).length = e.size
  | .proxy hnode _ => by
    rw [h.subtree_eq, scope, term?, hnode]
    rfl
  | .term hnode _ hchildren => by
    rw [h.subtree_eq, scope_of_term? (term?_of_node? hnode), List.length_cons,
      hchildren.length_flatMap h, Expansion.size]

/-- Below some nodes are as many nodes as the trees have that they show. -/
theorem ShowsAll.length_flatMap (h : t.Arranged) {es : List Expansion} {parent : Option Nat}
    {links : List Link} : t.ShowsAll parent links es →
      (links.flatMap fun link => t.subtree link.node).length = Expansion.sizeOfAll es
  | .nil => rfl
  | .cons _ he hrest => by
    rw [List.flatMap_cons, List.length_append, he.length_subtree h, hrest.length_flatMap h,
      Expansion.sizeOfAll]

end

mutual

/-- A node that shows a tree is the same as where the tree is laid out, if the places of the walk through
both are given the same numbers. -/
theorem Shows.renumber {e : Expansion} {parent : Option Nat} {id start : Nat}
    {above : Option (Nat × XPaths)} (h : t.Arranged) (hshows : t.Shows parent id e)
    (hholds : t'.Holds start above e) (hwalk : (t.subtree id).map ρ = List.range' start e.size)
    (hparent : above.map (·.1) = parent.map ρ)
    (hpaths : above.map (·.2) = (parent.bind t.term?).map Term.paths) :
    ρ id = start ∧
      ∀ below ∈ t.subtree id, t'.node? (ρ below) = (t.node? below).map (Node.renumber ρ) := by
  rw [h.subtree_eq] at hwalk ⊢
  cases e with
  | proxy name pointer settings =>
    cases hshows with
    | @proxy _ _ proxy hnode hproxy =>
      have hid : proxy.id = id := (h.placed id _ hnode).id_eq
      have hnone : t.scope (some id) = [] := by
        rw [scope, term?, hnode]
        rfl
      rw [hnone] at hwalk ⊢
      have hstart : ρ id = start := (List.cons.inj hwalk).1
      refine ⟨hstart, fun below hbelow => ?_⟩
      obtain rfl := List.mem_singleton.1 hbelow
      rw [hstart, hholds.proxy, hnode, hparent, ← hproxy, ← hstart]
      subst hid
      rfl
  | term name traits children =>
    cases hshows with
    | @term _ _ term _ hnode hterm hchildren =>
      have hid : term.id = id := (h.placed id _ hnode).id_eq
      have hscope := scope_of_term? (term?_of_node? hnode)
      rw [hscope, List.map_cons, Expansion.size, List.range'_succ] at hwalk
      obtain ⟨hstart, hbelow⟩ := List.cons.inj hwalk
      have hbelowPaths : XPaths.below (above.map (·.2)) term.traits = term.paths := by
        rw [hpaths, ← hterm, (h.placed id _ hnode).paths term rfl]
      obtain ⟨hlinks, hall⟩ := hchildren.renumber h hholds.children hbelow
        (congrArg some hstart.symm)
        (by rw [hbelowPaths, Option.bind_some, term?_of_node? hnode]; rfl)
      refine ⟨hstart, fun below hmem => ?_⟩
      rcases List.mem_cons.1 hmem with rfl | hmem
      · rw [hstart, hholds.term, hnode, hparent, ← hterm, hbelowPaths, ← hlinks, ← hstart]
        subst hid
        rfl
      · rw [hscope] at hmem
        exact hall below hmem

/-- Nodes that show some trees are the same as where the trees are laid out, likewise. -/
theorem ShowsAll.renumber {es : List Expansion} {parent : Option Nat} {links : List Link} {start : Nat}
    {above : Option (Nat × XPaths)} (h : t.Arranged) (hshows : t.ShowsAll parent links es)
    (hholds : t'.HoldsAll start above es)
    (hwalk : (links.flatMap fun link => t.subtree link.node).map ρ =
      List.range' start (Expansion.sizeOfAll es))
    (hparent : above.map (·.1) = parent.map ρ)
    (hpaths : above.map (·.2) = (parent.bind t.term?).map Term.paths) :
    links.map (Link.renumber ρ) = Expansion.links start es ∧
      ∀ below ∈ links.flatMap fun link => t.subtree link.node,
        t'.node? (ρ below) = (t.node? below).map (Node.renumber ρ) := by
  cases es with
  | nil =>
    cases hshows
    exact ⟨rfl, nofun⟩
  | cons e rest =>
    cases hshows with
    | @cons _ link others _ _ hname he hrest =>
      obtain ⟨hfirst, hothers⟩ := holdsAll_cons_iff.1 hholds
      rw [List.flatMap_cons, List.map_append, Expansion.sizeOfAll, ← List.range'_append_1] at hwalk
      obtain ⟨hwalk₁, hwalk₂⟩ := List.append_inj hwalk (by simp [he.length_subtree h])
      obtain ⟨hstart, hbelow⟩ := he.renumber h hfirst hwalk₁ hparent hpaths
      obtain ⟨hlinks, hall⟩ := hrest.renumber h hothers hwalk₂ hparent hpaths
      refine ⟨?_, fun below hmem => ?_⟩
      · rw [List.map_cons, Expansion.links, hlinks, Link.renumber, hstart, hname]
      · rw [List.flatMap_cons] at hmem
        exact (List.mem_append.1 hmem).elim (hbelow below) (hall below)

end

/-- The numbers that a list gives to what is on it. -/
theorem map_idxOf {ids : List Nat} (h : ids.Nodup) : ids.map ids.idxOf = List.range ids.length := by
  refine List.ext_getElem (by simp) fun i hi hi' => ?_
  rw [List.getElem_map, List.getElem_range, h.idxOf_getElem]

/-- The walk through a terminology that shows a forest numbers its nodes as the forest is laid out. -/
theorem Arranged.map_idxOf_walk (h : t.Arranged) (hshows : t.ShowsAll none t.roots es) :
    t.walk.map t.walk.idxOf = List.range' 0 (Expansion.sizeOfAll es) := by
  rw [map_idxOf h.nodup_walk, List.range_eq_range']
  congr 1
  exact hshows.length_flatMap h

/-- A terminology that shows a forest is the same as the forest laid out, but for numbers. -/
theorem Arranged.renumbers_ofForest (h : t.Arranged) (hshows : t.ShowsAll none t.roots es) :
    t.Renumbers t.walk.idxOf (ofForest es) := by
  obtain ⟨hlinks, hall⟩ := hshows.renumber h (holdsAll_ofForest es) (h.map_idxOf_walk hshows) rfl rfl
  refine ⟨hlinks.symm, fun id hid => hall id (h.mem_walk_iff.2 hid), fun id other hid _ heq => ?_⟩
  exact (List.idxOf_inj (h.mem_walk_iff.2 hid)).1 heq

/-- Walk by walk, a terminology that shows a forest without dangling proxies is the same as the forest
laid out, but for numbers. -/
theorem Arranged.exists_renumbering (h : t.Arranged) (hshows : t.ShowsAll none t.roots es)
    (hlinks : (ofForest es).checkLinks.result = .ok ()) :
    ∃ ρ : Nat → Nat, (ofForest es).walk = t.walk.map ρ ∧
      (∀ a ∈ t.walk, ∀ b ∈ t.walk, ρ a = ρ b → a = b) ∧
      (ofForest es).roots = t.roots.map (Link.renumber ρ) ∧
      ∀ a ∈ t.walk, (ofForest es).node? (ρ a) = (t.node? a).map (Node.renumber ρ) := by
  have hsame := h.renumbers_ofForest hshows
  refine ⟨t.walk.idxOf, ?_, ?_, hsame.roots, ?_⟩
  · rw [h.map_idxOf_walk hshows]
    exact (holdsAll_ofForest es).flatMap_subtree (coherent_ofForest hlinks)
  · intro a ha b hb
    exact hsame.injective a b (h.mem_walk_iff.1 ha) (h.mem_walk_iff.1 hb)
  · intro a ha
    exact hsame.node a (h.mem_walk_iff.1 ha)

/-- All nodes of the forest are met. -/
theorem Arranged.exists_idxOf_walk (h : t.Arranged) (hshows : t.ShowsAll none t.roots es) {place : Nat}
    (hplace : place < Expansion.sizeOfAll es) : ∃ id, t.Linked id ∧ t.walk.idxOf id = place := by
  have hmem : place ∈ t.walk.map t.walk.idxOf := by
    rw [h.map_idxOf_walk hshows]
    exact List.mem_range'_1.2 (by omega)
  obtain ⟨id, hid, heq⟩ := List.mem_map.1 hmem
  exact ⟨id, h.mem_walk_iff.1 hid, heq⟩

/-- If every proxy that the roots lead to stands for a term, then every proxy of the forest does, and the
other way round. -/
theorem Arranged.checkLinks_ofForest_iff (h : t.Arranged) (hshows : t.ShowsAll none t.roots es) :
    (ofForest es).checkLinks.result = .ok () ↔
      ∀ id proxy, t.Linked id → t.node? id = some (.proxy proxy) →
        ∃ term, t.resolveProxy id = .ok term := by
  have hsame := h.renumbers_ofForest hshows
  rw [(arranged_ofForest es).checkLinks_iff]
  constructor
  · intro hall id proxy hid hnode
    exact ((hsame.mirrors h).resolves_iff hid).1 (hall _ _ (hsame.node_eq hid hnode))
  · intro hall place proxy hnode'
    have hplace := lt_size_of_node? hnode'
    rw [size_ofForest] at hplace
    obtain ⟨id, hid, rfl⟩ := h.exists_idxOf_walk hshows hplace
    rw [(hsame.mirrors h).resolves_iff hid]
    rw [hsame.node id hid] at hnode'
    obtain ⟨node, hnode, hrenumber⟩ := Option.map_eq_some_iff.1 hnode'
    cases node with
    | term term => cases hrenumber
    | proxy old => exact hall id old hid hnode

end Terminology

end TermAtlas
