import TermAtlas.Proofs.Construction
import TermAtlas.Proofs.Renumbering

/-!
# Roots built alone

A root can be built together with all others of its registry, or alone. What is laid out from another number
on is the same with all numbers shifted, paths included, as they depend on what is above only. Unless the
root is a proxy, nothing in its tree has siblings outside: a proxy in it has its siblings in the tree, and
what it leads to is found there, whatever else there is in the terminology. So the tree can be checked
alone; and all roots together are coherent if each of them is.

## What is proved

* `Expansion.nodes_add` — a tree laid out from another number on.
* `mirrors_alone` — a tree laid out alone is mirrored by the same tree laid out somewhere else.
* `Registry.build_iff_alone` — building all roots, and building them one by one.
-/

namespace TermAtlas

/-! ### Shifted layouts -/

namespace Expansion

/-- Links to places further on. -/
theorem links_add (k start : Nat) (es : List Expansion) :
    links (k + start) es = (links start es).map (Link.renumber (k + ·)) := by
  induction es generalizing start with
  | nil => rfl
  | cons e rest ih =>
    rw [links, links, List.map_cons, Nat.add_assoc, ih]
    rfl

mutual

/-- A tree laid out from another number on, below a term whose number is shifted as well. -/
theorem nodes_add (k start : Nat) (above : Option (Nat × XPaths)) (e : Expansion) :
    e.nodes (k + start) (above.map fun pair => (k + pair.1, pair.2)) =
      (e.nodes start above).map (Node.renumber (k + ·)) := by
  have hnumber : (above.map fun pair => (k + pair.1, pair.2)).map (·.1) = (above.map (·.1)).map (k + ·) := by
    cases above <;> rfl
  have hpaths : (above.map fun pair => (k + pair.1, pair.2)).map (·.2) = above.map (·.2) := by
    cases above <;> rfl
  cases e with
  | proxy name pointer settings =>
    rw [nodes, nodes, hnumber]
    rfl
  | term name traits children =>
    have hchildren := nodesOfAll_add k (start + 1)
      (some (start, XPaths.below (above.map (·.2)) traits)) children
    rw [nodes, nodes, hnumber, hpaths, List.map_cons, Nat.add_assoc, links_add, ← hchildren]
    rfl

/-- Some trees laid out from another number on, likewise. -/
theorem nodesOfAll_add (k start : Nat) (above : Option (Nat × XPaths)) (es : List Expansion) :
    nodesOfAll (k + start) (above.map fun pair => (k + pair.1, pair.2)) es =
      (nodesOfAll start above es).map (Node.renumber (k + ·)) := by
  cases es with
  | nil => rfl
  | cons e rest =>
    rw [nodesOfAll, nodesOfAll, List.map_append, nodes_add, Nat.add_assoc, nodesOfAll_add]

end

/-- Each place of some trees that are laid out is a place of one of them. -/
theorem exists_tree {es : List Expansion} {place : Nat} (h : place < sizeOfAll es) :
    ∃ before e after i, es = before ++ e :: after ∧ i < e.size ∧ place = sizeOfAll before + i := by
  induction es generalizing place with
  | nil => cases h
  | cons e rest ih =>
    rw [sizeOfAll] at h
    by_cases hfirst : place < e.size
    · exact ⟨[], e, rest, place, rfl, hfirst, by rw [sizeOfAll, Nat.zero_add]⟩
    · have hplace : place - e.size < sizeOfAll rest := by omega
      obtain ⟨before, other, after, i, rfl, hi, heq⟩ := ih hplace
      exact ⟨e :: before, other, after, i, rfl, hi, by rw [sizeOfAll]; omega⟩

end Expansion

namespace Terminology

/-- The scopes below `size`; not the roots. -/
def Within (size : Nat) : Option Nat → Prop
  | none => False
  | some id => id < size

variable {t t' : Terminology} {k start i : Nat} {above : Option (Nat × XPaths)} {e : Expansion}
  {before after : List Expansion}

/-- Behind other trees a tree is laid out as from there on. -/
theorem HoldsAll.holds (h : t.HoldsAll start above (before ++ e :: after)) :
    t.Holds (start + Expansion.sizeOfAll before) above e := by
  induction before generalizing start with
  | nil => exact (holdsAll_cons_iff.1 h).1
  | cons other rest ih =>
    have hrest := ih (holdsAll_cons_iff.1 h).2
    rwa [Nat.add_assoc] at hrest

theorem holds_ofForest (before : List Expansion) (e : Expansion) (after : List Expansion) :
    (ofForest (before ++ e :: after)).Holds (Expansion.sizeOfAll before) none e := by
  have h := (holdsAll_ofForest (before ++ e :: after)).holds
  rwa [Nat.zero_add] at h

/-- The nodes of a tree are the same wherever it is laid out, but for numbers. -/
theorem Holds.node?_add (h : t.Holds k none e) (h' : t'.Holds 0 none e) (hi : i < e.size) :
    t.node? (k + i) = (t'.node? i).map (Node.renumber (k + ·)) := by
  have hi' := h' i hi
  rw [Nat.zero_add] at hi'
  rw [h i hi, hi', ← List.getElem?_map, ← Expansion.nodes_add]
  rfl

/-! ### Looking up in one tree -/

variable {name : Name} {traits : Traits} {children : List Expansion} {proxy : Proxy}

theorem holds_alone (e : Expansion) : (ofForest [e]).Holds 0 none e := holds_ofForest [] e []

theorem size_alone (e : Expansion) : (ofForest [e]).size = e.size := by
  rw [size_ofForest, Expansion.sizeOfAll, Expansion.sizeOfAll, Nat.add_zero]

/-- A proxy in the tree of a term has its siblings in the tree. -/
theorem within_parent_alone
    (hnode : (ofForest [.term name traits children]).node? i = some (.proxy proxy)) :
    Within (Expansion.size (.term name traits children)) proxy.parent := by
  have hlt := lt_size_of_node? hnode
  rw [size_alone] at hlt
  cases hparent : proxy.parent with
  | none =>
    -- only the term itself has no parent
    obtain ⟨link, hlink, rfl⟩ := rooted_ofForest _ i _ hnode hparent
    obtain rfl := List.mem_singleton.1 hlink
    cases hnode.symm.trans (holds_alone _).term
  | some upper =>
    have hless := (((arranged_ofForest _).placed i _ hnode).parent upper hparent).1
    exact Nat.lt_trans hless hlt

/-- A tree of a term that is laid out alone is mirrored by the same tree laid out somewhere else. -/
theorem mirrors_alone (h : t.Holds k none (.term name traits children)) :
    (ofForest [.term name traits children]).Mirrors (k + ·)
      (Within (Expansion.size (.term name traits children))) t where
  node id hid := by
    rw [h.node?_add (holds_alone _) hid]
    cases (ofForest [.term name traits children]).node? id with
    | none => exact .none
    | some node => exact .some (node.mirrors_renumber _)
  missing id hid hnone := by
    rw [← size_alone] at hid
    rw [node?, List.getElem?_eq_none_iff] at hnone
    exact absurd hid (Nat.not_lt.2 hnone)
  root hnone := hnone.elim
  below scope name next _ hchild := by
    obtain ⟨link, hlink, -, rfl⟩ := exists_link_of_child? hchild
    obtain ⟨node, hnode, -, -⟩ := (arranged_ofForest _).entry hlink
    have hlt := lt_size_of_node? hnode
    rwa [size_alone] at hlt
  above _ _ _ hnode := within_parent_alone hnode
  injective _ _ _ _ heq := Nat.add_left_cancel heq

/-- The proxies of a tree stand for terms, wherever it is laid out, as soon as they do where it is laid out
alone. -/
theorem checkLinks_alone_iff (h : t.Holds k none (.term name traits children)) :
    (ofForest [.term name traits children]).checkLinks.result = .ok () ↔
      ∀ i proxy, i < Expansion.size (.term name traits children) → t.node? (k + i) = some (.proxy proxy) →
        ∃ term, t.resolveProxy (k + i) = .ok term := by
  rw [(arranged_ofForest _).checkLinks_iff]
  constructor
  · intro hall i proxy hi hnode
    rw [(mirrors_alone h).resolves_iff hi]
    rw [h.node?_add (holds_alone _) hi] at hnode
    obtain ⟨node, hnode, hproxy⟩ := Option.map_eq_some_iff.1 hnode
    cases node with
    | term term => cases hproxy
    | proxy old => exact hall i old hnode
  · intro hall i proxy hnode
    have hi := lt_size_of_node? hnode
    rw [size_alone] at hi
    rw [← (mirrors_alone h).resolves_iff hi]
    refine hall i (proxy.renumber (k + ·)) hi ?_
    rw [h.node?_add (holds_alone _) hi, hnode]
    rfl

end Terminology

/-! ### All roots and one root -/

theorem Declaration.build_eq_ok_iff {d : Declaration} {registry : Option Registry} {t : Terminology} :
    (d.build registry).result = .ok t ↔ ∃ e, (d.expand registry).result = .ok e ∧
      t = Terminology.ofForest [e] ∧ t.checkLinks.result = .ok () := by
  rw [build, Terminology.build_eq_ok_iff]
  constructor
  · rintro ⟨forest, hforest, rfl, hlinks⟩
    cases forest with
    | nil => cases hforest
    | cons e rest =>
      rw [List.map_cons, List.map_nil, List.map_cons, List.cons.injEq] at hforest
      obtain rfl := List.map_eq_nil_iff.1 hforest.2.symm
      exact ⟨e, hforest.1, rfl, hlinks⟩
  · rintro ⟨e, hexpand, rfl, hlinks⟩
    exact ⟨[e], by rw [List.map_cons, hexpand]; rfl, rfl, hlinks⟩

/-- What is expanded one by one is expanded if each declaration is. -/
theorem exists_map_eq_map_ok {expansion : Declaration → Except Error Expansion} {ds : List Declaration}
    (h : ∀ d ∈ ds, ∃ e, expansion d = .ok e) : ∃ es : List Expansion, ds.map expansion = es.map Except.ok := by
  induction ds with
  | nil => exact ⟨[], rfl⟩
  | cons d rest ih =>
    obtain ⟨hd, hrest⟩ := List.forall_mem_cons.1 h
    obtain ⟨e, he⟩ := hd
    obtain ⟨es, hes⟩ := ih hrest
    exact ⟨e :: es, by rw [List.map_cons, he, hes, List.map_cons]⟩

namespace Terminology

/-- If the tree of each root can be built alone and is that of a term, then all of them can be built. -/
theorem checkLinks_of_alone {forest : List Expansion} (h : ∀ e ∈ forest,
    ∃ name traits children, e = .term name traits children ∧ (ofForest [e]).checkLinks.result = .ok ()) :
    (ofForest forest).checkLinks.result = .ok () := by
  rw [(arranged_ofForest forest).checkLinks_iff]
  intro place proxy hnode
  have hplace := lt_size_of_node? hnode
  rw [size_ofForest] at hplace
  obtain ⟨before, e, after, i, rfl, hi, rfl⟩ := Expansion.exists_tree hplace
  obtain ⟨name, traits, children, rfl, hlinks⟩ := h e (by simp)
  have hholds := holds_ofForest before (.term name traits children) after
  exact (checkLinks_alone_iff hholds).1 hlinks i proxy hi hnode

end Terminology

theorem Node.renumber_renumber {ρ σ : Nat → Nat} (h : ∀ id, σ (ρ id) = id) (node : Node) :
    (node.renumber ρ).renumber σ = node := by
  have hparent : ∀ parent : Option Nat, (parent.map ρ).map σ = parent := by
    intro parent
    cases parent <;> simp [h]
  have hlinks : ∀ links : List Link, (links.map (Link.renumber ρ)).map (Link.renumber σ) = links := by
    intro links
    simp [Link.renumber, Function.comp_def, h]
  cases node with
  | term term => simp only [Node.renumber, Term.renumber, h, hparent, hlinks]
  | proxy proxy => simp only [Node.renumber, Proxy.renumber, h, hparent]

namespace Registry

variable {r : Registry} {b : Declaration} {k : Nat} {forest : List Expansion}

/-- A root is found where its tree is laid out. -/
theorem exists_tree_of_root
    (hforest : r.roots.map (fun d => (d.expand (some r)).result) = forest.map Except.ok) (hb : b ∈ r.roots)
    (hchild : (Terminology.ofForest forest).child? none b.name = some k) :
    ∃ e, (b.expand (some r)).result = .ok e ∧ e.name = b.name ∧ (Terminology.ofForest forest).Holds k none e := by
  have hnames : (Roster.names (Expansion.links 0 forest)).Nodup := by
    rw [Expansion.names_links, Declaration.map_name_of_expanded hforest]
    exact r.distinct
  obtain ⟨front, back, hroots⟩ := List.append_of_mem hb
  rw [hroots, List.map_append, List.map_cons] at hforest
  obtain ⟨before, rest, rfl, -, hrest⟩ := List.map_eq_append_iff.1 hforest.symm
  obtain ⟨e, after, rfl, he, -⟩ := List.map_eq_cons_iff.1 hrest
  have hname : e.name = b.name := Declaration.name_of_expandWithin he.symm
  have hlink : Roster.find? b.name (Expansion.links 0 (before ++ e :: after)) =
      some ⟨e.name, Expansion.sizeOfAll before⟩ := by
    refine (Roster.find?_eq_some_iff hnames).2 ⟨?_, hname⟩
    rw [Expansion.links_append, Nat.zero_add]
    exact List.mem_append_right _ List.mem_cons_self
  rw [Terminology.child?, Terminology.scope, Terminology.ofForest, hlink] at hchild
  obtain rfl := Option.some.inj hchild
  exact ⟨e, he.symm, hname, Terminology.holds_ofForest before e after⟩

/-- A root that is a term is built alone as it is built together with all others, but for numbers. -/
theorem build_alone {t : Terminology} {term : Term} (hbuild : r.build.result = .ok t) (hb : b ∈ r.roots)
    (hchild : t.child? none b.name = some k) (hterm : t.term? k = some term) :
    ∃ t', (b.build (some r)).result = .ok t' ∧ t'.roots = [⟨b.name, 0⟩] ∧
      t'.size = (t.subtree k).length ∧
      ∀ i < (t.subtree k).length, t.node? (k + i) = (t'.node? i).map (Node.renumber (k + ·)) := by
  have hcoherent := (Terminology.Reached.built hbuild).coherent
  obtain ⟨forest, hforest, rfl, -⟩ := Terminology.build_eq_ok_iff.1 (build_eq_ok_iff.1 hbuild)
  obtain ⟨e, hexpand, hname, hholds⟩ := exists_tree_of_root hforest hb hchild
  have hsize : ((Terminology.ofForest forest).subtree k).length = e.size :=
    hholds.shows.length_subtree hcoherent.toArranged
  have hlinks : (Terminology.ofForest [e]).checkLinks.result = .ok () := by
    cases e with
    -- a proxy alone would have no siblings to be found among
    | proxy name pointer settings => cases hholds.proxy.symm.trans (Terminology.node?_of_term? hterm)
    | term name traits children =>
      exact (Terminology.checkLinks_alone_iff hholds).2 fun i proxy _ hnode =>
        hcoherent.exists_resolveProxy hnode
  refine ⟨Terminology.ofForest [e], Declaration.build_eq_ok_iff.2 ⟨e, hexpand, rfl, hlinks⟩, ?_, ?_, ?_⟩
  · rw [← hname]
    rfl
  · rw [Terminology.size_alone, hsize]
  · intro i hi
    exact hholds.node?_add (Terminology.holds_alone e) (hsize ▸ hi)

/-- If each root can be built alone and is a term, then all can be built together. -/
theorem exists_build_of_alone
    (h : ∀ b ∈ r.roots, ∃ t' term, (b.build (some r)).result = .ok t' ∧ t'.term? 0 = some term) :
    ∃ t, r.build.result = .ok t := by
  have hexpand : ∀ b ∈ r.roots, ∃ e, (b.expand (some r)).result = .ok e := by
    intro b hb
    obtain ⟨t', term, hbuild, -⟩ := h b hb
    obtain ⟨e, he, -⟩ := Declaration.build_eq_ok_iff.1 hbuild
    exact ⟨e, he⟩
  obtain ⟨forest, hforest⟩ := exists_map_eq_map_ok hexpand
  have hlinks : (Terminology.ofForest forest).checkLinks.result = .ok () := by
    refine Terminology.checkLinks_of_alone fun e he => ?_
    have hmem : Except.ok e ∈ r.roots.map fun d => (d.expand (some r)).result := by
      rw [hforest]
      exact List.mem_map_of_mem he
    obtain ⟨b, hb, hbe⟩ := List.mem_map.1 hmem
    obtain ⟨t', term, hbuild, hterm⟩ := h b hb
    obtain ⟨other, hother, rfl, hlinks⟩ := Declaration.build_eq_ok_iff.1 hbuild
    obtain rfl := Except.ok.inj (hother.symm.trans hbe)
    cases other with
    | proxy name pointer settings =>
      cases (Terminology.holds_alone _).proxy.symm.trans (Terminology.node?_of_term? hterm)
    | term name traits children => exact ⟨name, traits, children, rfl, hlinks⟩
  exact ⟨Terminology.ofForest forest,
    build_eq_ok_iff.2 (Terminology.build_eq_ok_iff.2 ⟨forest, hforest, rfl, hlinks⟩)⟩

/-- A root that is a term is built alone as it is built together with all others, with numbers that start
from zero instead of from its own. If each root can be built alone and is a term, then all can be built
together. -/
theorem build_iff_alone :
    (∀ t b k term, r.build.result = .ok t → b ∈ r.roots → t.child? none b.name = some k →
      t.term? k = some term →
      ∃ t', (b.build (some r)).result = .ok t' ∧ t'.roots = [⟨b.name, 0⟩] ∧
        t'.size = (t.subtree k).length ∧ ∀ i < (t.subtree k).length,
          t.node? (k + i) = (t'.node? i).map (Node.renumber (k + ·)) ∧
            t'.node? i = (t.node? (k + i)).map (Node.renumber (· - k))) ∧
    ((∀ b ∈ r.roots, ∃ t' term, (b.build (some r)).result = .ok t' ∧ t'.term? 0 = some term) →
      ∃ t, r.build.result = .ok t) := by
  refine ⟨fun t b k term hbuild hb hchild hterm => ?_, exists_build_of_alone⟩
  obtain ⟨t', hbuild', hroots, hsize, hnodes⟩ := build_alone hbuild hb hchild hterm
  refine ⟨t', hbuild', hroots, hsize, fun i hi => ⟨hnodes i hi, ?_⟩⟩
  have hback : Node.renumber (· - k) ∘ Node.renumber (k + ·) = id := by
    funext node
    exact node.renumber_renumber fun id => Nat.add_sub_cancel_left k id
  rw [hnodes i hi, Option.map_map, hback, Option.map_id_apply]

end Registry

namespace Terminology.Sample

/-- The roots that are terms. -/
def termRegistry : Registry where
  roots := registry.roots.take 2
  distinct := by decide

/-- The declaration of persons, which are names of a type. -/
def typedPerson : Declaration := registry.roots.get ⟨1, by decide⟩

/-- Persons are built alone with five nodes, and together with names from number five on. -/
theorem build_alone_of_person :
    (∃ t', (typedPerson.build (some registry)).result = .ok t' ∧ t'.roots = [⟨⟨"person"⟩, 0⟩] ∧ t'.size = 5 ∧
      ∀ i < 5, built.node? (5 + i) = (t'.node? i).map (Node.renumber (5 + ·))) ∧
    ∃ t, termRegistry.build.result = .ok t := by
  obtain ⟨term, hterm⟩ : ∃ term, built.term? 5 = some term :=
    Option.isSome_iff_exists.1 (by decide +kernel)
  have hchild : built.child? none typedPerson.name = some 5 := by decide +kernel
  have hsize : (built.subtree 5).length = 5 := by decide +kernel
  obtain ⟨t', hbuild, hroots, hsize', hnodes⟩ := Registry.build_iff_alone.1 built typedPerson 5 term result_build
    (List.get_mem _ _) hchild hterm
  rw [hsize] at hsize' hnodes
  refine ⟨⟨t', hbuild, hroots, hsize', fun i hi => (hnodes i hi).1⟩, Registry.build_iff_alone.2 ?_⟩
  have hall : ∀ b ∈ termRegistry.roots,
      (b.build (some termRegistry)).result.toOption.any fun t => (t.term? 0).isSome := by
    decide +kernel
  intro b hb
  have hb' := hall b hb
  cases hbuild' : (b.build (some termRegistry)).result with
  | error e =>
    rw [hbuild'] at hb'
    cases hb'
  | ok t =>
    rw [hbuild'] at hb'
    obtain ⟨root, hroot⟩ := Option.isSome_iff_exists.1 hb'
    exact ⟨t, root, rfl, hroot⟩

end Terminology.Sample

end TermAtlas
