import Mathlib.Data.List.Nodup
import Mathlib.Logic.Function.Iterate
import TermAtlas.Proofs.Coherence

/-!
# Walking

The links of a reached terminology agree with one another, and so the roots lead to a forest: a node
is linked from one place at most, and the nodes below a term have higher numbers than the term. A walk
lists what can be reached from the roots, each node once and every term before the nodes below it.

The guard in `subtree` never stops a walk of such a terminology. `visit` has no guard: it is one turn
of the loop that takes a node off a stack and puts the nodes below it on. As many turns as the walk has
nodes empty the stack.

## What is proved

* `Arranged.induction_below` — induction from the nodes without children up.
* `Arranged.listed_walk`, `Arranged.nodup_walk`, `Arranged.mem_walk_iff` — the walk is depth first, has
  no repetition and leaves nothing out.
* `Listed.iterate_visit` — the loop lists the same nodes.
* `Reached.wellLinked_and_walk` — the links of a reached terminology agree, and what follows for walks.
-/

namespace TermAtlas.Terminology

/-- The links between nodes agree with one another. -/
structure WellLinked (t : Terminology) : Prop where
  /-- The node at a place has the place as its number. -/
  id_eq : ∀ id node, t.node? id = some node → node.id = id
  /-- What a node names as its parent is a term with a lower number. -/
  parent : ∀ id node above, t.node? id = some node → node.parent = some above →
    above < id ∧ ∃ term, t.node? above = some (.term term)
  /-- Each entry of the children of a term leads to a node of its name that names the term as its
  parent. -/
  child : ∀ id term, t.node? id = some (.term term) → ∀ link ∈ term.children,
    ∃ node, t.node? link.node = some node ∧ node.name = link.name ∧ node.parent = some id
  /-- Each entry of the roots leads to a node of its name without a parent. -/
  root : ∀ link ∈ t.roots,
    ∃ node, t.node? link.node = some node ∧ node.name = link.name ∧ node.parent = none
  /-- No number is twice in one scope. -/
  nodup : ∀ scope, ((t.scope scope).map Link.node).Nodup
  /-- No number is in two scopes. -/
  apart : ∀ scope scope' id, id ∈ (t.scope scope).map Link.node →
    id ∈ (t.scope scope').map Link.node → scope = scope'

/-- The nodes that the roots lead to. -/
inductive Linked (t : Terminology) : Nat → Prop where
  /-- A root. -/
  | root {link : Link} : link ∈ t.roots → Linked t link.node
  /-- A node below a term that the roots lead to. -/
  | child {id : Nat} {link : Link} : Linked t id → link ∈ t.scope (some id) → Linked t link.node

/-- `t.Listed links ids`: `ids` are the nodes of `links` in their order, each with the nodes below it
right behind it. -/
inductive Listed (t : Terminology) : List Link → List Nat → Prop where
  /-- No links lead to no nodes. -/
  | nil : Listed t [] []
  /-- The first node, the nodes below it, and then those of the other links. -/
  | cons {link : Link} {rest : List Link} {below after : List Nat} :
      Listed t (t.scope (some link.node)) below → Listed t rest after →
      Listed t (link :: rest) (link.node :: (below ++ after))

/-- One turn of the loop: takes the node on top of the stack, and puts those below it on the stack. -/
def visit (t : Terminology) : List Nat × List Nat → List Nat × List Nat
  | (seen, []) => (seen, [])
  | (seen, id :: stack) => (seen ++ [id], (t.scope (some id)).map Link.node ++ stack)

variable {t : Terminology} {scope : Option Nat} {id : Nat} {link : Link}

/-! ### Links -/

theorem exists_term_of_mem_scope (h : link ∈ t.scope (some id)) :
    ∃ term, t.term? id = some term ∧ link ∈ term.children := by
  cases hterm : t.term? id with
  | none => simp [scope, hterm] at h
  | some term => exact ⟨term, rfl, by rwa [scope_of_term? hterm] at h⟩

/-- Each entry of a scope leads to a node of its name, and the scope is that of its siblings. -/
theorem Arranged.entry (h : t.Arranged) (hlink : link ∈ t.scope scope) :
    ∃ node, t.node? link.node = some node ∧ node.name = link.name ∧ node.parent = scope := by
  cases scope with
  | none => exact h.root link hlink
  | some id =>
    obtain ⟨term, hterm, hmem⟩ := exists_term_of_mem_scope hlink
    exact (h.placed id _ (node?_of_term? hterm)).entry term rfl link hmem

/-- A scope is what the nodes in it say is above them. -/
theorem Arranged.parent_of_mem_scope (h : t.Arranged) (hlink : link ∈ t.scope scope) {node : Node}
    (hnode : t.node? link.node = some node) : node.parent = scope := by
  obtain ⟨node', hnode', -, hparent⟩ := h.entry hlink
  obtain rfl := Option.some.inj (hnode'.symm.trans hnode)
  exact hparent

/-- Nodes below a term have higher numbers. -/
theorem Arranged.lt_of_mem_scope (h : t.Arranged) (hlink : link ∈ t.scope (some id)) :
    id < link.node := by
  obtain ⟨node, hnode, -, hparent⟩ := h.entry hlink
  exact ((h.placed _ _ hnode).parent id hparent).1

theorem Arranged.nodup_scope (h : t.Arranged) (scope : Option Nat) :
    ((t.scope scope).map Link.node).Nodup := by
  cases scope with
  | none => exact h.nodup_roots
  | some id =>
    cases hterm : t.term? id with
    | none => simp [Terminology.scope, hterm]
    | some term =>
      rw [scope_of_term? hterm]
      exact (h.placed id _ (node?_of_term? hterm)).nodup term rfl

/-- The links of an arranged terminology agree. -/
theorem Arranged.wellLinked (h : t.Arranged) : t.WellLinked := by
  refine ⟨fun id node hnode => (h.placed id node hnode).id_eq, ?_, ?_, h.root, h.nodup_scope, ?_⟩
  · intro id node above hnode hparent
    obtain ⟨hlt, hsome⟩ := (h.placed id node hnode).parent above hparent
    obtain ⟨term, hterm⟩ := Option.isSome_iff_exists.1 hsome
    exact ⟨hlt, term, node?_of_term? hterm⟩
  · intro id term hnode
    exact (h.placed id _ hnode).entry term rfl
  · intro scope scope' id hid hid'
    obtain ⟨link, hlink, rfl⟩ := List.mem_map.1 hid
    obtain ⟨link', hlink', heq⟩ := List.mem_map.1 hid'
    obtain ⟨node, hnode, -, hparent⟩ := h.entry hlink
    exact hparent.symm.trans (h.parent_of_mem_scope hlink' (heq ▸ hnode))

/-! ### What is below a node -/

/-- What holds of a node as soon as it holds of those right below it holds of all nodes. -/
theorem Arranged.induction_below (h : t.Arranged) {motive : Nat → Prop}
    (step : ∀ id, (∀ link ∈ t.scope (some id), motive link.node) → motive id) (id : Nat) :
    motive id := by
  induction hsize : t.size - id using Nat.strongRecOn generalizing id with
  | _ size ih =>
    refine step id fun link hlink => ?_
    have hlt := h.lt_of_mem_scope hlink
    obtain ⟨node, hnode, -⟩ := h.entry hlink
    have hbound := lt_size_of_node? hnode
    exact ih (t.size - link.node) (by omega) link.node rfl

/-- Links to lower numbers are not followed. -/
theorem subtree_eq_flatMap (t : Terminology) (id : Nat) :
    t.subtree id = id :: (t.scope (some id)).flatMap fun link =>
      if id < link.node then t.subtree link.node else [] := by
  rw [subtree]
  split
  · next hterm => simp [scope, hterm]
  · next term hterm =>
    rw [scope_of_term? hterm]
    rfl

/-- What is below a node depends on the scopes only. -/
theorem subtree_congr {t' : Terminology} (hscope : ∀ scope, t'.scope scope = t.scope scope) (id : Nat) :
    t'.subtree id = t.subtree id := by
  induction id using subtree.induct t with
  | case1 id ih =>
    rw [subtree_eq_flatMap, subtree_eq_flatMap, hscope]
    congr 1
    refine List.flatMap_congr fun link hlink => ?_
    obtain ⟨term, hterm, -⟩ := exists_term_of_mem_scope hlink
    by_cases hlt : id < link.node
    · rw [if_pos hlt, if_pos hlt, ih term hterm link hlt]
    · rw [if_neg hlt, if_neg hlt]

/-- All links are followed. -/
theorem Arranged.subtree_eq (h : t.Arranged) (id : Nat) :
    t.subtree id = id :: (t.scope (some id)).flatMap fun link => t.subtree link.node := by
  rw [subtree_eq_flatMap]
  congr 1
  refine List.flatMap_congr fun link hlink => ?_
  exact if_pos (h.lt_of_mem_scope hlink)

theorem Arranged.le_of_mem_subtree (h : t.Arranged) {below : Nat} (hbelow : below ∈ t.subtree id) :
    id ≤ below := by
  induction id using h.induction_below with
  | step id ih =>
    rw [h.subtree_eq, List.mem_cons, List.mem_flatMap] at hbelow
    rcases hbelow with rfl | ⟨link, hlink, hbelow⟩
    · exact Nat.le_refl _
    · have hlt := h.lt_of_mem_scope hlink
      have hle := ih link hlink hbelow
      omega

/-- Of what is in a subtree, all but the top has its parent in the subtree. -/
theorem Arranged.parent_of_mem_subtree (h : t.Arranged) {below : Nat}
    (hbelow : below ∈ t.subtree id) :
    below = id ∨
      ∃ node above, t.node? below = some node ∧ node.parent = some above ∧ above ∈ t.subtree id := by
  induction id using h.induction_below with
  | step id ih =>
    rw [h.subtree_eq, List.mem_cons, List.mem_flatMap] at hbelow
    rcases hbelow with rfl | ⟨link, hlink, hbelow⟩
    · exact .inl rfl
    · right
      rw [h.subtree_eq]
      rcases ih link hlink hbelow with rfl | ⟨node, above, hnode, hparent, habove⟩
      · obtain ⟨node, hnode, -, hparent⟩ := h.entry hlink
        exact ⟨node, id, hnode, hparent, List.mem_cons_self⟩
      · exact ⟨node, above, hnode, hparent,
          List.mem_cons_of_mem _ (List.mem_flatMap.2 ⟨link, hlink, habove⟩)⟩

/-- A node is not below its sibling: their parent has a lower number than both of them. -/
theorem Arranged.not_mem_subtree_of_sibling (h : t.Arranged) {link link' : Link}
    (hlink : link ∈ t.scope scope) (hlink' : link' ∈ t.scope scope) (hne : link.node ≠ link'.node) :
    link.node ∉ t.subtree link'.node := by
  intro hmem
  rcases h.parent_of_mem_subtree hmem with heq | ⟨node, above, hnode, hparent, habove⟩
  · exact hne heq
  · rw [← h.parent_of_mem_scope hlink hnode, hparent] at hlink'
    have hlt := h.lt_of_mem_scope hlink'
    have hle := h.le_of_mem_subtree habove
    omega

/-- Siblings have nothing below them in common. -/
theorem Arranged.disjoint_subtree (h : t.Arranged) {link link' : Link} (hlink : link ∈ t.scope scope)
    (hlink' : link' ∈ t.scope scope) (hne : link.node ≠ link'.node) :
    (t.subtree link.node).Disjoint (t.subtree link'.node) := by
  intro id hid hid'
  -- up from a common node the parents are common too, and at last one of the two siblings is
  induction id using Nat.strongRecOn with
  | _ id ih =>
    rcases h.parent_of_mem_subtree hid with rfl | ⟨node, above, hnode, hparent, habove⟩
    · exact h.not_mem_subtree_of_sibling hlink hlink' hne hid'
    · rcases h.parent_of_mem_subtree hid' with rfl | ⟨node', above', hnode', hparent', habove'⟩
      · exact h.not_mem_subtree_of_sibling hlink' hlink hne.symm hid
      · obtain rfl := Option.some.inj (hnode'.symm.trans hnode)
        obtain rfl := Option.some.inj (hparent.symm.trans hparent')
        exact ih above ((h.placed id _ hnode).parent above hparent).1 habove habove'

/-- What is listed from a scope has no repetition if the subtrees have none. -/
theorem Arranged.nodup_flatMap_scope (h : t.Arranged) (scope : Option Nat)
    (hsubtree : ∀ link ∈ t.scope scope, (t.subtree link.node).Nodup) :
    ((t.scope scope).flatMap fun link => t.subtree link.node).Nodup := by
  rw [List.nodup_flatMap]
  refine ⟨hsubtree, ?_⟩
  have hne := List.pairwise_map.1 (h.nodup_scope scope)
  exact hne.imp_of_mem fun hlink hlink' hne => h.disjoint_subtree hlink hlink' hne

theorem Arranged.nodup_subtree (h : t.Arranged) (id : Nat) : (t.subtree id).Nodup := by
  induction id using h.induction_below with
  | step id ih =>
    rw [h.subtree_eq, List.nodup_cons]
    refine ⟨fun hmem => ?_, h.nodup_flatMap_scope (some id) ih⟩
    obtain ⟨link, hlink, hid⟩ := List.mem_flatMap.1 hmem
    have hlt := h.lt_of_mem_scope hlink
    have hle := h.le_of_mem_subtree hid
    omega

/-- A walk has no repetition. -/
theorem Arranged.nodup_walk (h : t.Arranged) : t.walk.Nodup :=
  h.nodup_flatMap_scope none fun link _ => h.nodup_subtree link.node

/-! ### Depth first -/

theorem listed_flatMap {links : List Link}
    (h : ∀ link ∈ links, t.Listed [link] (t.subtree link.node)) :
    t.Listed links (links.flatMap fun link => t.subtree link.node) := by
  induction links with
  | nil => exact .nil
  | cons link rest ih =>
    have hrest := ih fun other hother => h other (List.mem_cons_of_mem _ hother)
    have hlink := h link List.mem_cons_self
    rw [List.flatMap_cons]
    cases hids : t.subtree link.node with
    | nil => rw [hids] at hlink; cases hlink
    | cons top below =>
      rw [hids] at hlink
      cases hlink with
      | cons hbelow hafter =>
        cases hafter
        rw [List.append_nil]
        exact .cons hbelow hrest

theorem Arranged.listed_subtree (h : t.Arranged) (link : Link) :
    t.Listed [link] (t.subtree link.node) := by
  have hall : ∀ id, ∀ link : Link, link.node = id → t.Listed [link] (t.subtree id) := by
    intro id
    induction id using h.induction_below with
    | step id ih =>
      rintro link rfl
      rw [h.subtree_eq, ← List.append_nil (List.flatMap _ _)]
      exact .cons (listed_flatMap fun below hbelow => ih below hbelow below rfl) .nil
  exact hall link.node link rfl

/-- A walk is depth first. -/
theorem Arranged.listed_walk (h : t.Arranged) : t.Listed t.roots t.walk :=
  listed_flatMap fun link _ => h.listed_subtree link

section Listed

variable {links : List Link} {ids : List Nat}

theorem Listed.mem (h : t.Listed links ids) (hlink : link ∈ links) : link.node ∈ ids := by
  induction h with
  | nil => cases hlink
  | cons _ _ _ ihafter =>
    rcases List.mem_cons.1 hlink with rfl | hlink
    · exact List.mem_cons_self
    · exact List.mem_cons_of_mem _ (List.mem_append_right _ (ihafter hlink))

/-- The nodes below a listed one are listed behind it. -/
theorem Listed.sublist (h : t.Listed links ids) (hid : id ∈ ids) (hlink : link ∈ t.scope (some id)) :
    [id, link.node].Sublist ids := by
  induction h with
  | nil => cases hid
  | cons hbelow _ ihbelow ihafter =>
    rcases List.mem_cons.1 hid with rfl | hid
    · refine List.Sublist.cons_cons _ (List.singleton_sublist.2 ?_)
      exact List.mem_append_left _ (hbelow.mem hlink)
    · rcases List.mem_append.1 hid with hid | hid
      · exact ((ihbelow hid).trans (List.sublist_append_left _ _)).cons _
      · exact ((ihafter hid).trans (List.sublist_append_right _ _)).cons _

/-- Links of what the roots lead to list nothing else. -/
theorem Listed.linked (h : t.Listed links ids) (hlinks : ∀ link ∈ links, t.Linked link.node)
    (hid : id ∈ ids) : t.Linked id := by
  induction h with
  | nil => cases hid
  | cons _ _ ihbelow ihafter =>
    have htop := hlinks _ List.mem_cons_self
    rcases List.mem_cons.1 hid with rfl | hid
    · exact htop
    · rcases List.mem_append.1 hid with hid | hid
      · exact ihbelow (fun _ hlink => htop.child hlink) hid
      · exact ihafter (fun _ hlink => hlinks _ (List.mem_cons_of_mem _ hlink)) hid

/-- As many turns of the loop as there are nodes to be listed list them. -/
theorem Listed.iterate_visit (h : t.Listed links ids) (seen stack : List Nat) :
    t.visit^[ids.length] (seen, links.map Link.node ++ stack) = (seen ++ ids, stack) := by
  induction h generalizing seen stack with
  | nil => simp
  | @cons link rest below after _ _ ihbelow ihafter =>
    calc t.visit^[(link.node :: (below ++ after)).length]
          (seen, (link :: rest).map Link.node ++ stack)
        = t.visit^[after.length + below.length]
            (seen ++ [link.node],
              (t.scope (some link.node)).map Link.node ++ (rest.map Link.node ++ stack)) := by
          rw [List.length_cons, List.length_append, Nat.add_comm below.length,
            Function.iterate_succ_apply]
          rfl
      _ = t.visit^[after.length] (seen ++ [link.node] ++ below, rest.map Link.node ++ stack) := by
          rw [Function.iterate_add_apply, ihbelow]
      _ = (seen ++ link.node :: (below ++ after), stack) := by
          rw [ihafter]
          simp

end Listed

/-- A walk lists exactly what the roots lead to. -/
theorem Arranged.mem_walk_iff (h : t.Arranged) : id ∈ t.walk ↔ t.Linked id := by
  constructor
  · exact h.listed_walk.linked fun link hlink => .root hlink
  · intro hid
    induction hid with
    | root hlink => exact h.listed_walk.mem hlink
    | child _ hlink ih => exact (h.listed_walk.sublist ih hlink).subset (by simp)

/-- A node that a walk lists comes behind its parent. -/
theorem Arranged.parent_before (h : t.Arranged) {node : Node} {above : Nat} (hid : id ∈ t.walk)
    (hnode : t.node? id = some node) (hparent : node.parent = some above) :
    [above, id].Sublist t.walk := by
  cases h.mem_walk_iff.1 hid with
  | @root link hlink =>
    have hroot : link ∈ t.scope none := hlink
    cases hparent.symm.trans (h.parent_of_mem_scope hroot hnode)
  | child hlinked hlink =>
    obtain rfl := Option.some.inj (hparent.symm.trans (h.parent_of_mem_scope hlink hnode))
    exact h.listed_walk.sublist (h.mem_walk_iff.2 hlinked) hlink

/-- The links of a reached terminology agree. So a walk ends; it lists what the roots lead to once,
depth first, and every term before the nodes below it. -/
theorem Reached.wellLinked_and_walk (h : t.Reached) :
    t.WellLinked ∧
      t.visit^[t.walk.length] ([], t.roots.map Link.node) = (t.walk, []) ∧
      t.walk.Nodup ∧ (∀ id, id ∈ t.walk ↔ t.Linked id) ∧ t.Listed t.roots t.walk ∧
      ∀ id node above, id ∈ t.walk → t.node? id = some node → node.parent = some above →
        [above, id].Sublist t.walk := by
  have hcoherent := h.coherent
  refine ⟨hcoherent.wellLinked, ?_, hcoherent.nodup_walk, fun _ => hcoherent.mem_walk_iff,
    hcoherent.listed_walk, fun _ _ _ => hcoherent.parent_before⟩
  simpa using hcoherent.listed_walk.iterate_visit [] []

/-- The role that a graft took the place of is not walked any more; its parent still is. -/
theorem Sample.walk_of_grafted : Sample.grafted.Reached ∧ Sample.grafted.Linked 5 ∧
    ¬ Sample.grafted.Linked 7 ∧
    Sample.grafted.visit^[12] ([], [0, 5, 10]) = ([0, 1, 2, 3, 4, 5, 6, 11, 12, 13, 9, 10], []) := by
  obtain ⟨-, hvisit, -, hmem, -, -⟩ := Reached.wellLinked_and_walk reached_grafted
  have hwalk : Sample.grafted.walk = [0, 1, 2, 3, 4, 5, 6, 11, 12, 13, 9, 10] := by decide +kernel
  have hroots : Sample.grafted.roots.map Link.node = [0, 5, 10] := by decide +kernel
  rw [hwalk, hroots] at hvisit
  refine ⟨reached_grafted, (hmem 5).1 ?_, fun hlinked => ?_, ?_⟩
  · rw [hwalk]
    decide
  · have hseven := (hmem 7).2 hlinked
    rw [hwalk] at hseven
    exact absurd hseven (by decide)
  · exact hvisit

end TermAtlas.Terminology
