import TermAtlas.Terminology.Basic

/-!
# Layout

What is known of the nodes that a tree is laid out as. `Holds` says that a terminology has the nodes
of a tree from a number on; every node of the tree is then *placed* well: its number is its place, the
term above has a lower number, its children name it as their parent, and its paths are derived from
those of the term above.

## What is proved

* `Holds.head` — the outermost node has the name of the tree and the parent that it was laid out below.
* `HoldsAll.entry` — each entry of the links leads to a node of its name.
* `Holds.placed` — all nodes of a tree are placed well if the term above is.
-/

namespace TermAtlas

namespace Expansion

/-- A tree has a node. -/
theorem size_pos (e : Expansion) : 0 < e.size := by
  cases e <;> simp [size]

/-- Links lead to places in the layout. -/
theorem node_mem_links {start : Nat} {es : List Expansion} {link : Link} (h : link ∈ links start es) :
    start ≤ link.node ∧ link.node < start + sizeOfAll es := by
  induction es generalizing start with
  | nil => simp [links] at h
  | cons e rest ih =>
    have hpos := e.size_pos
    rw [links, List.mem_cons] at h
    rw [sizeOfAll]
    rcases h with rfl | h
    · exact ⟨Nat.le_refl _, by dsimp only; omega⟩
    · have := ih h
      omega

/-- Links lead to later and later places. -/
theorem pairwise_links (start : Nat) (es : List Expansion) :
    (links start es).Pairwise (·.node < ·.node) := by
  induction es generalizing start with
  | nil => exact List.Pairwise.nil
  | cons e rest ih =>
    rw [links, List.pairwise_cons]
    refine ⟨fun link hlink => ?_, ih _⟩
    have hpos := e.size_pos
    have hle := (node_mem_links hlink).1
    dsimp only
    omega

/-- No two links lead to the same place. -/
theorem nodup_links (start : Nat) (es : List Expansion) : ((links start es).map Link.node).Nodup := by
  rw [List.Nodup, List.pairwise_map]
  exact (pairwise_links start es).imp Nat.ne_of_lt

end Expansion

namespace Terminology

variable {t : Terminology} {start : Nat} {above : Option (Nat × XPaths)}

/-- The terminology has the nodes of a tree, numbered from `start` on, below a term of this number
and these paths. -/
def Holds (t : Terminology) (start : Nat) (above : Option (Nat × XPaths)) (e : Expansion) : Prop :=
  ∀ i < e.size, t.node? (start + i) = (e.nodes start above)[i]?

/-- The terminology has the nodes of some trees, one tree after the other. -/
def HoldsAll (t : Terminology) (start : Nat) (above : Option (Nat × XPaths)) (es : List Expansion) :
    Prop :=
  ∀ i < Expansion.sizeOfAll es, t.node? (start + i) = (Expansion.nodesOfAll start above es)[i]?

/-! ### Taking a layout apart -/

theorem Holds.proxy {name : Name} {pointer : Pointer} {settings : Settings}
    (h : t.Holds start above (.proxy name pointer settings)) :
    t.node? start = some (.proxy ⟨start, name, above.map (·.1), pointer, settings⟩) := by
  simpa [Expansion.nodes] using h 0 (Expansion.size_pos _)

theorem Holds.term {name : Name} {traits : Traits} {children : List Expansion}
    (h : t.Holds start above (.term name traits children)) :
    t.node? start = some (.term ⟨start, name, above.map (·.1), traits,
      Expansion.links (start + 1) children, XPaths.below (above.map (·.2)) traits⟩) := by
  simpa [Expansion.nodes] using h 0 (Expansion.size_pos _)

theorem Holds.children {name : Name} {traits : Traits} {children : List Expansion}
    (h : t.Holds start above (.term name traits children)) :
    t.HoldsAll (start + 1) (some (start, XPaths.below (above.map (·.2)) traits)) children := by
  intro i hi
  have := h (i + 1) (by rw [Expansion.size]; omega)
  rw [Expansion.nodes, List.getElem?_cons_succ] at this
  rwa [Nat.add_assoc, Nat.add_comm 1 i]

theorem holdsAll_cons_iff {e : Expansion} {rest : List Expansion} :
    t.HoldsAll start above (e :: rest) ↔
      t.Holds start above e ∧ t.HoldsAll (start + e.size) above rest := by
  have hlength := Expansion.length_nodes start above e
  constructor
  · intro h
    refine ⟨fun i hi => ?_, fun i hi => ?_⟩
    · rw [h i (by rw [Expansion.sizeOfAll]; omega), Expansion.nodesOfAll,
        List.getElem?_append_left (by omega)]
    · have := h (e.size + i) (by rw [Expansion.sizeOfAll]; omega)
      rwa [Expansion.nodesOfAll, List.getElem?_append_right (by omega), hlength,
        Nat.add_sub_cancel_left, ← Nat.add_assoc] at this
  · rintro ⟨he, hrest⟩ i hi
    rw [Expansion.sizeOfAll] at hi
    rw [Expansion.nodesOfAll]
    by_cases hlt : i < e.size
    · rw [List.getElem?_append_left (by omega), he i hlt]
    · rw [List.getElem?_append_right (by omega), hlength, ← hrest (i - e.size) (by omega)]
      congr 1
      omega

/-- The outermost node has the name of the tree and the parent that it was laid out below. -/
theorem Holds.head {e : Expansion} (h : t.Holds start above e) :
    ∃ node, t.node? start = some node ∧ node.name = e.name ∧ node.parent = above.map (·.1) := by
  cases e with
  | proxy name pointer settings => exact ⟨_, h.proxy, rfl, rfl⟩
  | term name traits children => exact ⟨_, h.term, rfl, rfl⟩

/-- Each entry of the links leads to a node of its name. -/
theorem HoldsAll.entry {es : List Expansion} (h : t.HoldsAll start above es) {link : Link}
    (hlink : link ∈ Expansion.links start es) :
    ∃ node, t.node? link.node = some node ∧ node.name = link.name ∧
      node.parent = above.map (·.1) := by
  induction es generalizing start with
  | nil => simp [Expansion.links] at hlink
  | cons e rest ih =>
    obtain ⟨he, hrest⟩ := holdsAll_cons_iff.1 h
    rw [Expansion.links, List.mem_cons] at hlink
    rcases hlink with rfl | hlink
    · exact he.head
    · exact ih hrest hlink

/-! ### Nodes in their places -/

/-- A node is placed well under a number of the terminology. -/
structure Placed (t : Terminology) (id : Nat) (node : Node) : Prop where
  /-- Its number is its place. -/
  id_eq : node.id = id
  /-- The node above is a term with a lower number. -/
  parent : ∀ above, node.parent = some above → above < id ∧ (t.term? above).isSome
  /-- Each entry of its children leads to a node of this name that has it as parent. -/
  entry : ∀ term, node = .term term → ∀ link ∈ term.children,
    ∃ child, t.node? link.node = some child ∧ child.name = link.name ∧ child.parent = some id
  /-- No two entries of its children lead to the same node. -/
  nodup : ∀ term, node = .term term → (term.children.map Link.node).Nodup
  /-- Its paths are derived from those of the term above. -/
  paths : ∀ term, node = .term term →
    term.paths = XPaths.below ((term.parent.bind t.term?).map Term.paths) term.traits

/-- What a tree is laid out below is there: a term with a lower number and these paths. -/
def IsAbove (t : Terminology) (start : Nat) (above : Option (Nat × XPaths)) : Prop :=
  ∀ id paths, above = some (id, paths) →
    id < start ∧ ∃ term, t.term? id = some term ∧ term.paths = paths

theorem IsAbove.mono {next : Nat} (h : t.IsAbove start above) (hle : start ≤ next) :
    t.IsAbove next above := by
  intro id paths heq
  obtain ⟨hlt, hterm⟩ := h id paths heq
  exact ⟨by omega, hterm⟩

/-- Looking up what a tree is laid out below gives its paths. -/
theorem IsAbove.paths (h : t.IsAbove start above) :
    ((above.map (·.1)).bind t.term?).map Term.paths = above.map (·.2) := by
  cases above with
  | none => rfl
  | some pair =>
    obtain ⟨-, term, hterm, hpaths⟩ := h pair.1 pair.2 rfl
    simp [hterm, hpaths]

theorem IsAbove.parent (h : t.IsAbove start above) {id : Nat} (hid : above.map (·.1) = some id) :
    id < start ∧ (t.term? id).isSome := by
  cases above with
  | none => simp at hid
  | some pair =>
    obtain rfl : pair.1 = id := by simpa using hid
    obtain ⟨hlt, term, hterm, -⟩ := h pair.1 pair.2 rfl
    exact ⟨hlt, by rw [hterm]; rfl⟩

mutual

/-- All nodes of a tree are placed well if the term above is. -/
theorem Holds.placed {e : Expansion} {start : Nat} {above : Option (Nat × XPaths)}
    (h : t.Holds start above e) (ha : t.IsAbove start above) {id : Nat} {node : Node}
    (hle : start ≤ id) (hlt : id < start + e.size) (hnode : t.node? id = some node) :
    t.Placed id node := by
  cases e with
  | proxy name pointer settings =>
    obtain rfl : id = start := by rw [Expansion.size] at hlt; omega
    obtain rfl := Option.some.inj (hnode.symm.trans h.proxy)
    exact ⟨rfl, fun _ hparent => ha.parent hparent, by rintro _ ⟨⟩, by rintro _ ⟨⟩, by rintro _ ⟨⟩⟩
  | term name traits children =>
    have hall := h.children
    by_cases hid : id = start
    · subst hid
      obtain rfl := Option.some.inj (hnode.symm.trans h.term)
      refine ⟨rfl, fun _ hparent => ha.parent hparent, ?_, ?_, ?_⟩
      · rintro _ ⟨rfl⟩ link hlink
        exact hall.entry hlink
      · rintro _ ⟨rfl⟩
        exact Expansion.nodup_links _ _
      · rintro _ ⟨rfl⟩
        rw [ha.paths]
    · -- the children lie below the term at `start`, which is in its place already
      have hbelow : t.IsAbove (start + 1) (some (start, XPaths.below (above.map (·.2)) traits)) := by
        rintro _ _ ⟨rfl⟩
        exact ⟨by omega, _, term?_of_node? h.term, rfl⟩
      rw [Expansion.size] at hlt
      exact hall.placed hbelow (by omega) (by omega) hnode

/-- All nodes of some trees are placed well if the term above is. -/
theorem HoldsAll.placed {es : List Expansion} {start : Nat} {above : Option (Nat × XPaths)}
    (h : t.HoldsAll start above es) (ha : t.IsAbove start above) {id : Nat} {node : Node}
    (hle : start ≤ id) (hlt : id < start + Expansion.sizeOfAll es) (hnode : t.node? id = some node) :
    t.Placed id node := by
  cases es with
  | nil => rw [Expansion.sizeOfAll] at hlt; omega
  | cons e rest =>
    obtain ⟨he, hrest⟩ := holdsAll_cons_iff.1 h
    rw [Expansion.sizeOfAll] at hlt
    by_cases hfirst : id < start + e.size
    · exact he.placed ha hle hfirst hnode
    · exact hrest.placed (ha.mono (by omega)) (by omega) (by omega) hnode

end

end Terminology

end TermAtlas
