import TermAtlas.Proofs.Layout
import TermAtlas.Proofs.Reached

/-!
# Coherence

A terminology is *arranged* when every node is placed well and every root leads to a node of its name
that has no parent. It is *coherent* when in addition every proxy stands for a term. Building makes
coherent terminologies, and grafting and deriving paths anew keep them so: a graft adds nodes behind all
others and changes nothing of the old ones but the children of one term. Attaching a tree keeps a
terminology arranged even if a proxy then leads nowhere, and the graft fails.

## What is proved

* `node?_attach_of_lt`, `term?_attach_of_lt`, `holds_attach` — what is found after attaching a tree.
* `Arranged.attach` — attaching a tree keeps all nodes in their places.
* `Arranged.checkLinks_iff` — what the check means place by place.
* `coherent_ofForest`, `Coherent.attach`, `Coherent.regenerate_eq` — what building, grafting and
  deriving paths anew do.
* `Reached.coherent` — every reached terminology is coherent.
-/

namespace TermAtlas.Terminology

/-- All nodes are in their places; proxies may lead nowhere. -/
structure Arranged (t : Terminology) : Prop where
  /-- Every node is placed well. -/
  placed : ∀ id node, t.node? id = some node → t.Placed id node
  /-- Each root entry leads to a node of this name without a parent. -/
  root : ∀ link ∈ t.roots,
    ∃ node, t.node? link.node = some node ∧ node.name = link.name ∧ node.parent = none
  /-- No two root entries lead to the same node. -/
  nodup_roots : (t.roots.map Link.node).Nodup

/-- All nodes are in their places, and all proxies stand for terms. -/
structure Coherent (t : Terminology) : Prop extends Arranged t where
  /-- Every proxy stands for a term. -/
  resolves : ∀ proxy, Node.proxy proxy ∈ t.nodes → ∃ term, t.resolveProxy proxy.id = .ok term

variable {t : Terminology}

/-! ### Building -/

theorem holdsAll_ofForest (forest : List Expansion) : (ofForest forest).HoldsAll 0 none forest := by
  intro i _
  rw [Nat.zero_add]
  rfl

theorem size_ofForest (forest : List Expansion) : (ofForest forest).size = Expansion.sizeOfAll forest :=
  Expansion.length_nodesOfAll 0 none forest

/-- All nodes of a forest that is laid out are in their places. -/
theorem arranged_ofForest (forest : List Expansion) : (ofForest forest).Arranged := by
  have hall := holdsAll_ofForest forest
  refine ⟨fun id node hnode => ?_, fun link hlink => ?_, Expansion.nodup_links 0 forest⟩
  · have hlt := lt_size_of_node? hnode
    rw [size_ofForest] at hlt
    exact hall.placed nofun (Nat.zero_le id) (by omega) hnode
  · exact hall.entry hlink

/-- Where all nodes are in their places, the check passes exactly when every place of a proxy stands for a
term. -/
theorem Arranged.checkLinks_iff (h : t.Arranged) : t.checkLinks.result = .ok () ↔
    ∀ id proxy, t.node? id = some (.proxy proxy) → ∃ term, t.resolveProxy id = .ok term := by
  rw [checkLinks_eq_ok_iff]
  constructor
  · intro hall id proxy hnode
    have hid : proxy.id = id := (h.placed id _ hnode).id_eq
    exact hid ▸ hall proxy (List.mem_of_getElem? hnode)
  · intro hall proxy hproxy
    obtain ⟨id, hnode⟩ := List.mem_iff_getElem?.1 hproxy
    have hid : proxy.id = id := (h.placed id (.proxy proxy) hnode).id_eq
    exact hid ▸ hall id proxy hnode

/-- In a coherent terminology every place of a proxy does. -/
theorem Coherent.exists_resolveProxy (h : t.Coherent) {id : Nat} {proxy : Proxy}
    (hnode : t.node? id = some (.proxy proxy)) : ∃ term, t.resolveProxy id = .ok term :=
  h.toArranged.checkLinks_iff.1 (checkLinks_eq_ok_iff.2 h.resolves) id proxy hnode

/-- A forest that is laid out is coherent if its proxies stand for terms. -/
theorem coherent_ofForest {forest : List Expansion}
    (h : (ofForest forest).checkLinks.result = .ok ()) : (ofForest forest).Coherent :=
  ⟨arranged_ofForest forest, checkLinks_eq_ok_iff.1 h⟩

/-! ### Grafting -/

theorem size_attach (t : Terminology) (parent : Term) (e : Expansion) :
    (t.attach parent e).size = t.size + e.size := by
  simp [attach, size, Expansion.length_nodes]

/-- Of the old nodes only the parent is changed, and of the parent only the children. -/
theorem node?_attach_of_lt {parent : Term} {e : Expansion} {id : Nat} (hid : id < t.size) :
    (t.attach parent e).node? id =
      (t.node? id).map fun node =>
        if id = parent.id then node.adopt ⟨e.name, t.size⟩ else node := by
  have hlt : id < (t.nodes.modify parent.id (·.adopt ⟨e.name, t.size⟩)).length := by
    rwa [List.length_modify]
  rw [node?, attach, List.getElem?_append_left hlt, List.getElem?_modify, node?]
  by_cases hparent : id = parent.id
  · simp [hparent]
  · simp [hparent, Ne.symm hparent]

/-- Behind the old nodes are those of the tree. -/
theorem node?_attach_of_le {parent : Term} {e : Expansion} {id : Nat} (hid : t.size ≤ id) :
    (t.attach parent e).node? id =
      (e.nodes t.size (some (parent.id, parent.paths)))[id - t.size]? := by
  have hlength : (t.nodes.modify parent.id (·.adopt ⟨e.name, t.size⟩)).length = t.size :=
    List.length_modify ..
  rw [node?, attach, List.getElem?_append_right (by omega), hlength]

/-- The new nodes are those of the tree. -/
theorem holds_attach (t : Terminology) (parent : Term) (e : Expansion) :
    (t.attach parent e).Holds t.size (some (parent.id, parent.paths)) e := by
  intro i _
  rw [node?_attach_of_le (Nat.le_add_right _ _), Nat.add_sub_cancel_left]

theorem term?_attach_of_lt {parent : Term} {e : Expansion} {id : Nat} (hid : id < t.size) :
    (t.attach parent e).term? id =
      (t.term? id).map fun term =>
        if id = parent.id then term.adopt ⟨e.name, t.size⟩ else term := by
  rw [term?, node?_attach_of_lt hid, term?]
  cases t.node? id with
  | none => rfl
  | some node =>
    by_cases hparent : id = parent.id
    · simp [hparent, Node.term?_adopt]
    · simp [hparent]

/-- A proxy that was there before is the same. -/
theorem node?_attach_of_proxy (parent : Term) (e : Expansion) {id : Nat} {proxy : Proxy}
    (hnode : t.node? id = some (.proxy proxy)) :
    (t.attach parent e).node? id = some (.proxy proxy) := by
  rw [node?_attach_of_lt (lt_size_of_node? hnode), hnode, Option.map_some]
  split <;> rfl

/-- So was a proxy that is not new. -/
theorem node?_of_attach_proxy {parent : Term} {e : Expansion} {id : Nat} {proxy : Proxy}
    (hid : id < t.size) (hnode : (t.attach parent e).node? id = some (.proxy proxy)) :
    t.node? id = some (.proxy proxy) := by
  rw [node?_attach_of_lt hid] at hnode
  obtain ⟨old, hold, heq⟩ := Option.map_eq_some_iff.1 hnode
  cases old with
  | term term => split at heq <;> cases heq
  | proxy other => split at heq <;> (cases heq; exact hold)

/-- A node that was there before has changed neither its number nor its name nor its parent. -/
theorem exists_node?_attach (parent : Term) (e : Expansion) {id : Nat} {node : Node}
    (hnode : t.node? id = some node) :
    ∃ node', (t.attach parent e).node? id = some node' ∧ node'.name = node.name ∧
      node'.parent = node.parent := by
  rw [node?_attach_of_lt (lt_size_of_node? hnode), hnode, Option.map_some]
  by_cases hparent : id = parent.id
  · exact ⟨node.adopt ⟨e.name, t.size⟩, by rw [if_pos hparent], by simp, by simp⟩
  · exact ⟨node, by rw [if_neg hparent], rfl, rfl⟩

/-- A term that was there before has the same paths. -/
theorem exists_term?_attach (parent : Term) (e : Expansion) {id : Nat} {term : Term}
    (hterm : t.term? id = some term) :
    ∃ term', (t.attach parent e).term? id = some term' ∧ term'.paths = term.paths := by
  rw [term?_attach_of_lt (lt_size_of_term? hterm), hterm, Option.map_some]
  by_cases hparent : id = parent.id
  · exact ⟨term.adopt ⟨e.name, t.size⟩, by rw [if_pos hparent], rfl⟩
  · exact ⟨term, by rw [if_neg hparent], rfl⟩

theorem Arranged.id_of_term? (h : t.Arranged) {id : Nat} {term : Term} (hterm : t.term? id = some term) :
    term.id = id :=
  (h.placed id _ (node?_of_term? hterm)).id_eq

/-- A node that is placed well still is when a tree has been attached elsewhere. -/
theorem Placed.of_attach {id : Nat} {node : Node} (h : t.Placed id node) (parent : Term)
    (e : Expansion) : (t.attach parent e).Placed id node := by
  refine ⟨h.id_eq, fun above habove => ?_, fun term hterm link hlink => ?_, h.nodup,
    fun term hterm => ?_⟩
  · obtain ⟨hlt, hsome⟩ := h.parent above habove
    obtain ⟨term, hterm⟩ := Option.isSome_iff_exists.1 hsome
    obtain ⟨term', hterm', -⟩ := exists_term?_attach parent e hterm
    exact ⟨hlt, by rw [hterm']; rfl⟩
  · obtain ⟨child, hchild, hname, hparent⟩ := h.entry term hterm link hlink
    obtain ⟨child', hchild', hname', hparent'⟩ := exists_node?_attach parent e hchild
    exact ⟨child', hchild', hname'.trans hname, hparent'.trans hparent⟩
  · rw [h.paths term hterm]
    subst hterm
    congr 1
    cases habove : term.parent with
    | none => rfl
    | some above =>
      obtain ⟨upper, hupper⟩ := Option.isSome_iff_exists.1 (h.parent above habove).2
      obtain ⟨upper', hupper', hpaths⟩ := exists_term?_attach parent e hupper
      simp [hupper, hupper', hpaths]

/-- A node that is placed well still is with an entry for a child that names it as its parent. -/
theorem Placed.adopt {id : Nat} {node child : Node} {link : Link} (h : t.Placed id node)
    (hchild : t.node? link.node = some child) (hname : child.name = link.name)
    (hparent : child.parent = some id)
    (hnew : ∀ term, node = .term term → link.node ∉ term.children.map Link.node) :
    t.Placed id (node.adopt link) := by
  cases node with
  | proxy proxy => exact h
  | term term =>
    refine ⟨h.id_eq, h.parent, ?_, ?_, ?_⟩
    · rintro _ ⟨rfl⟩ other hother
      rcases Roster.eq_or_mem_of_mem_put hother with rfl | hother
      · exact ⟨child, hchild, hname, hparent⟩
      · exact h.entry term rfl other hother
    · rintro _ ⟨rfl⟩
      exact Roster.nodup_map_put (h.nodup term rfl) (hnew term rfl)
    · rintro _ ⟨rfl⟩
      exact h.paths term rfl

/-- Attaching a tree keeps all nodes in their places, whatever becomes of the proxies. -/
theorem Arranged.attach (h : t.Arranged) {parent : Term} (e : Expansion)
    (hparent : t.term? parent.id = some parent) : (t.attach parent e).Arranged := by
  have hnew := holds_attach t parent e
  refine ⟨fun id node hnode => ?_, fun link hlink => ?_, h.nodup_roots⟩
  · by_cases hid : id < t.size
    · rw [node?_attach_of_lt hid] at hnode
      obtain ⟨old, hold, rfl⟩ := Option.map_eq_some_iff.1 hnode
      have hplaced := (h.placed id old hold).of_attach parent e
      by_cases heq : id = parent.id
      · subst heq
        rw [if_pos rfl]
        obtain ⟨child, hchild, hname, habove⟩ := hnew.head
        refine hplaced.adopt hchild hname habove fun term hterm hmem => ?_
        -- the nodes that the parent had as children are older than the tree
        obtain ⟨link, hlink, hlink'⟩ := List.mem_map.1 hmem
        obtain ⟨_, hfound, -⟩ := (h.placed _ old hold).entry term hterm link hlink
        exact absurd (lt_size_of_node? hfound) (by simp [hlink'])
      · rwa [if_neg heq]
    · have hlt := lt_size_of_node? hnode
      rw [size_attach] at hlt
      refine hnew.placed ?_ (by omega) hlt hnode
      rintro _ _ ⟨rfl⟩
      obtain ⟨term, hterm, hpaths⟩ := exists_term?_attach parent e hparent
      exact ⟨lt_size_of_term? hparent, term, hterm, hpaths⟩
  · obtain ⟨node, hnode, hname, hnone⟩ := h.root link hlink
    obtain ⟨node', hnode', hname', hparent'⟩ := exists_node?_attach parent e hnode
    exact ⟨node', hnode', hname'.trans hname, hparent'.trans hnone⟩

/-- Attaching a tree keeps a terminology coherent if all proxies still stand for terms. -/
theorem Coherent.attach (h : t.Coherent) {parent : Term} {e : Expansion}
    (hparent : t.term? parent.id = some parent)
    (hlinks : (t.attach parent e).checkLinks.result = .ok ()) : (t.attach parent e).Coherent :=
  ⟨h.toArranged.attach e hparent, checkLinks_eq_ok_iff.1 hlinks⟩

/-! ### Deriving paths anew -/

/-- Deriving the paths of a term anew gives those that it has. -/
theorem Coherent.refresh_eq (h : t.Coherent) (id : Nat) : t.refresh id = t := by
  refine ext_node? rfl fun other => ?_
  rw [refresh, node?_modify]
  cases hnode : t.node? other with
  | none => rfl
  | some node =>
    by_cases hother : other = id
    · subst hother
      cases node with
      | proxy proxy => simp [Node.mapTerm]
      | term term =>
        have hpaths := (h.placed other _ hnode).paths term rfl
        have hparent : t.parent? other = term.parent.bind t.term? := by
          rw [parent?, hnode]
          rfl
        simp only [Option.map_some, if_true, Node.mapTerm, hparent]
        rw [← hpaths]
    · simp [hother]

theorem Coherent.regenerate_eq (h : t.Coherent) (id : Nat) : t.regenerate id = t := by
  rw [regenerate]
  induction t.subtree id with
  | nil => rfl
  | cons below rest ih => rw [List.foldl_cons, h.refresh_eq, ih]

/-! ### Reached terminologies -/

/-- A change keeps a terminology coherent. -/
theorem Coherent.after (h : t.Coherent) (change : Change) : (t.after change).Coherent := by
  cases change with
  | regenerate id =>
    rw [Terminology.after, h.regenerate_eq]
    exact h
  | graft p d registry =>
    rw [Terminology.after]
    cases hresult : (t.graft p d registry).result with
    | error _ => exact h
    | ok pair =>
      obtain ⟨above, parent, e, -, hparent, -, hgrown, hlinks, -⟩ := graft_eq_ok_iff.1 hresult
      have hid := h.id_of_term? hparent
      subst hid
      dsimp only
      rw [hgrown] at hlinks ⊢
      exact h.attach hparent hlinks

/-- Every reached terminology is coherent. -/
theorem Reached.coherent (h : t.Reached) : t.Coherent := by
  induction h with
  | built hbuilt =>
    obtain ⟨forest, -, rfl, hlinks⟩ := build_eq_ok_iff.1 (Registry.build_eq_ok_iff.1 hbuilt)
    exact coherent_ofForest hlinks
  | builtAlone hbuilt =>
    obtain ⟨forest, -, rfl, hlinks⟩ := build_eq_ok_iff.1 hbuilt
    exact coherent_ofForest hlinks
  | changed change _ ih => exact ih.after change

end TermAtlas.Terminology
