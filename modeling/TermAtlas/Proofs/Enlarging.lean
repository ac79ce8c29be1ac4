import TermAtlas.Proofs.Alone
import TermAtlas.Proofs.Ordering
import TermAtlas.Proofs.Transparency

/-!
# One more root

A root under a new name goes last. It can only turn references and proxies that led nowhere into ones that lead
somewhere; those that led somewhere still lead to the same. So what can be built alone in view of a registry is
built in the same way in view of the larger one, and what is built from all roots is continued: the nodes of
the roots that were there come first, with the numbers that they had, and behind them come the nodes of the new
root.

## What is proved

* `Registry.includedIn_declare` — a larger registry finds all that the smaller one does.
* `Registry.build_of_declare` — building with one more root.
* `Continues.follow`, `Continues.retrieveIn?_eq` — what was found stays where it was found.
-/

namespace TermAtlas

variable {r : Registry} {d b : Declaration} {forest forest' : List Expansion} {e : Expansion}

/-! ### Declarations -/

/-- With a root under a new name all is found that was found before. -/
theorem Registry.includedIn_declare (hnew : d.name ∉ Roster.names r.roots) : r.IncludedIn (r.declare d) := by
  refine includedIn_of_find? fun name root hroot => ?_
  have hne : Named.name d ≠ name := by
    rintro rfl
    cases (Roster.find?_eq_none_iff.2 hnew).symm.trans hroot
  exact (Roster.find?_put_of_ne hne r.roots).trans hroot

/-- What is built in view of a registry is built in the same way in view of a larger one. -/
theorem Declaration.build_of_includedIn {r' : Registry} (h : r.IncludedIn r') {t : Terminology}
    (hbuild : (b.build (some r)).result = .ok t) : (b.build (some r')).result = .ok t := by
  obtain ⟨e, hexpand, ht, hlinks⟩ := build_eq_ok_iff.1 hbuild
  exact build_eq_ok_iff.2 ⟨e, expand_of_includedIn h hexpand, ht, hlinks⟩

/-- The forest of a registry with a new root is that of the registry, with the tree of the root last. -/
theorem Registry.forest_of_declare (hnew : d.name ∉ Roster.names r.roots)
    (hforest : r.roots.map (fun b => (b.expand (some r)).result) = forest.map Except.ok)
    (hforest' : (r.declare d).roots.map (fun b => (b.expand (some (r.declare d))).result) =
      forest'.map Except.ok) :
    ∃ e, e.name = d.name ∧ forest' = forest ++ [e] := by
  have hroots : (r.declare d).roots = r.roots ++ [d] := Roster.put_of_not_mem hnew
  have hsame : r.roots.map (fun b => (b.expand (some (r.declare d))).result) = forest.map Except.ok := by
    rw [← Logged.result_traverse_eq_ok_iff] at hforest ⊢
    exact result_traverse_of_each
      (fun b _ e he => Declaration.expand_of_includedIn (includedIn_declare hnew) he) hforest
  rw [hroots, List.map_append, hsame] at hforest'
  obtain ⟨front, back, rfl, hfront, hback⟩ := List.map_eq_append_iff.1 hforest'.symm
  obtain rfl := List.map_injective_iff.2 (fun _ _ => Except.ok.inj) hfront
  obtain ⟨e, rfl, he⟩ := List.map_eq_singleton_iff.1 hback
  exact ⟨e, Declaration.name_of_expandWithin he.symm, rfl⟩

namespace Terminology

variable {t t' : Terminology} {scope : Option Nat} {inProgress : List Nat} {id target : Nat}
  {names : List Name} {stops : List Nat} {p : Pointer}

/-! ### Looking up -/

/-- All that is found in `t` is found in `t'`, too, and is the same there. -/
structure Continues (t t' : Terminology) : Prop where
  /-- Names lead where they led. -/
  child : ∀ scope name id, t.child? scope name = some id → t'.child? scope name = some id
  /-- Nodes stay what they are. -/
  node : ∀ id node, t.node? id = some node → t'.node? id = some node

theorem Continues.term?_eq (h : t.Continues t') {term : Term} (hterm : t.term? id = some term) : t'.term? id = some term :=
  term?_of_node? (h.node id _ (node?_of_term? hterm))

theorem Continues.leads_of_follow (h : t.Continues t') (hleads : t.Leads inProgress scope names stops)
    (hfollow : ∀ next stop, t.followWithin inProgress next = .ok stop →
      t'.followWithin inProgress next = .ok stop) : t'.Leads inProgress scope names stops := by
  induction hleads with
  | nil => exact .nil
  | cons hchild hstop _ ih => exact .cons (h.child _ _ _ hchild) (hfollow _ _ hstop) ih

/-- What a node stands for stays the same. -/
theorem Continues.follow (h : t.Continues t') (hfollow : t.followWithin inProgress id = .ok target) :
    t'.followWithin inProgress id = .ok target := by
  refine followWithin_induction (motive := fun inProgress id target =>
    t'.followWithin inProgress id = .ok target) ?_ ?_ hfollow
  · intro inProgress id term hterm
    exact followWithin_term (h.term?_eq hterm) inProgress
  · intro inProgress id proxy stops target hnode hid hleads hlast ih
    exact (followWithin_proxy_eq_ok_iff (h.node id _ hnode)).2 ⟨hid, stops, h.leads_of_follow hleads ih, hlast⟩

/-- What a pointer leads to stays the same. -/
theorem Continues.retrieveIn?_eq (h : t.Continues t') {term : Term}
    (hterm : t.retrieveIn? scope p = some term) : t'.retrieveIn? scope p = some term := by
  obtain ⟨target, hlocate, hterm⟩ := retrieveIn?_eq_some_iff_locate.1 hterm
  obtain ⟨stops, hleads, hlast⟩ := locate_eq_ok_iff.1 hlocate
  have hleads' := h.leads_of_follow hleads fun _ _ => h.follow
  exact retrieveIn?_eq_some_iff_locate.2 ⟨target, locate_eq_ok_iff.2 ⟨stops, hleads', hlast⟩,
    h.term?_eq hterm⟩

/-! ### Layout -/

theorem nodes_ofForest_append (forest : List Expansion) (e : Expansion) :
    (ofForest (forest ++ [e])).nodes =
      (ofForest forest).nodes ++ e.nodes (Expansion.sizeOfAll forest) none := by
  simp [ofForest, Expansion.nodesOfAll_append, Expansion.nodesOfAll]

theorem roots_ofForest_append (forest : List Expansion) (e : Expansion) :
    (ofForest (forest ++ [e])).roots = (ofForest forest).roots ++ [⟨e.name, Expansion.sizeOfAll forest⟩] := by
  simp [ofForest, Expansion.links_append, Expansion.links]

/-- A forest is continued by one with more trees behind it. -/
theorem continues_ofForest_append (forest : List Expansion) (e : Expansion) :
    (ofForest forest).Continues (ofForest (forest ++ [e])) := by
  have hnode : ∀ id node, (ofForest forest).node? id = some node →
      (ofForest (forest ++ [e])).node? id = some node := by
    intro id node hnode
    rw [node?, nodes_ofForest_append, List.getElem?_append_left (lt_size_of_node? hnode)]
    exact hnode
  refine ⟨fun scope name id hchild => ?_, hnode⟩
  cases scope with
  | none =>
    rw [child?, Option.map_eq_some_iff] at hchild
    obtain ⟨link, hlink, rfl⟩ := hchild
    rw [scope, Roster.find?_eq] at hlink
    rw [child?, scope, roots_ofForest_append, Roster.find?_eq, List.find?_append, hlink]
    rfl
  | some upper =>
    obtain ⟨link, hlink, -, -⟩ := exists_link_of_child? hchild
    obtain ⟨term, hterm, -⟩ := exists_term_of_mem_scope hlink
    have hterm' : (ofForest (forest ++ [e])).term? upper = some term :=
      term?_of_node? (hnode _ _ (node?_of_term? hterm))
    rwa [child?, scope_of_term? hterm', ← scope_of_term? hterm]

end Terminology

/-! ### Building -/

namespace Registry

variable {t t' : Terminology}

/-- What is built from one root more is the forest that was built before, with one tree more. -/
theorem exists_forest_of_declare (hnew : d.name ∉ Roster.names r.roots) (hbuild : r.build.result = .ok t)
    (hbuild' : (r.declare d).build.result = .ok t') :
    ∃ forest e, e.name = d.name ∧ t = Terminology.ofForest forest ∧
      t' = Terminology.ofForest (forest ++ [e]) := by
  obtain ⟨forest, hforest, rfl, -⟩ := Terminology.build_eq_ok_iff.1 (build_eq_ok_iff.1 hbuild)
  obtain ⟨forest', hforest', rfl, -⟩ := Terminology.build_eq_ok_iff.1 (build_eq_ok_iff.1 hbuild')
  obtain ⟨e, hname, rfl⟩ := forest_of_declare hnew hforest hforest'
  exact ⟨forest, e, hname, rfl, rfl⟩

/-- With one more root, whatever a pointer leads to from the roots stays what it is. -/
theorem retrieve?_of_declare (hnew : d.name ∉ Roster.names r.roots) (hbuild : r.build.result = .ok t)
    (hbuild' : (r.declare d).build.result = .ok t') {p : Pointer} {term : Term}
    (hterm : t.retrieve? p = some term) : t'.retrieve? p = some term := by
  obtain ⟨forest, e, -, rfl, rfl⟩ := exists_forest_of_declare hnew hbuild hbuild'
  exact (Terminology.continues_ofForest_append forest e).retrieveIn?_eq hterm

/-- A root under a new name disturbs nothing: what could be built alone is built in the same way, and what is
built from all roots begins with the same nodes. Behind them there are the nodes of the new root and no others,
and its entry comes last. -/
theorem build_of_declare (hnew : d.name ∉ Roster.names r.roots) :
    (∀ (b : Declaration) (t : Terminology), (b.build (some r)).result = .ok t →
      (b.build (some (r.declare d))).result = .ok t) ∧
    ∀ t t', r.build.result = .ok t → (r.declare d).build.result = .ok t' →
      t'.roots = t.roots ++ [⟨d.name, t.size⟩] ∧
      ∃ more, t'.nodes = t.nodes ++ more ∧ t'.subtree t.size = List.range' t.size more.length := by
  refine ⟨fun b t hbuild => Declaration.build_of_includedIn (includedIn_declare hnew) hbuild, ?_⟩
  intro t t' hbuild hbuild'
  have hcoherent := (Terminology.Reached.built hbuild').coherent
  obtain ⟨forest, e, hname, rfl, rfl⟩ := exists_forest_of_declare hnew hbuild hbuild'
  have hholds := Terminology.holds_ofForest forest e []
  rw [Terminology.size_ofForest, Terminology.roots_ofForest_append, Terminology.nodes_ofForest_append, hname]
  refine ⟨rfl, _, rfl, ?_⟩
  rw [Expansion.length_nodes]
  exact hholds.subtree_eq hcoherent

end Registry

namespace Terminology.Sample

/-- A genre, which has the parts of names. -/
def genre : Declaration := declaration 10 "genre" [(.reference, .pointer (pointer ["name"]))] []

/-- With a genre as fourth root, persons are built as before, and the nodes of the genre come behind the eleven
that were there. -/
theorem build_of_declare_genre : genre.name ∉ Roster.names registry.roots ∧
    (∃ t, (typedPerson.build (some registry)).result = .ok t ∧
      (typedPerson.build (some (registry.declare genre))).result = .ok t) ∧
    ∃ t', (registry.declare genre).build.result = .ok t' ∧ t'.roots = built.roots ++ [⟨⟨"genre"⟩, 11⟩] ∧
      ∃ more, t'.nodes = built.nodes ++ more ∧ t'.subtree 11 = List.range' 11 more.length := by
  have hnew : genre.name ∉ Roster.names registry.roots := by decide
  have hsize : built.size = 11 := by decide +kernel
  have hperson : (typedPerson.build (some registry)).result.toOption.isSome := by decide +kernel
  have hgenre : (registry.declare genre).build.result.toOption.isSome := by decide +kernel
  obtain ⟨hone, hall⟩ := Registry.build_of_declare hnew
  have hresult := hall built _ result_build (eq_ok_get hgenre)
  rw [hsize] at hresult
  exact ⟨hnew, ⟨_, eq_ok_get hperson, hone _ _ (eq_ok_get hperson)⟩, _, eq_ok_get hgenre, hresult⟩

end Terminology.Sample

end TermAtlas
