import TermAtlas.Proofs.Mirroring
import TermAtlas.Terminology.InPlace

/-!
# Paths that are not derived yet

A bare terminology has no paths. Nothing that is looked up depends on them, so it mirrors the terminology
under the same numbers: the check of all proxies records and gives the same, and a walk goes the same way.
Deriving paths in the order of the numbers brings back, one node after the other, the paths of a terminology
whose nodes are in their places, since those of the term above are there already.

## What is proved

* `mirrors_bare`, `checkLinks_bare`, `subtree_bare` — what does not depend on paths.
* `Arranged.refresh_bareFrom` — deriving the paths of the first bare node.
* `Arranged.regenerate_bareFrom` — deriving those of a subtree that comes last.
-/

namespace TermAtlas

/-- The term without its paths. -/
def Term.bare (term : Term) : Term := { term with paths := .blank }

/-- The node without its paths if it is a term; proxies have none. -/
def Node.bare (node : Node) : Node := node.mapTerm Term.bare

@[simp]
theorem Node.bare_bare (node : Node) : node.bare.bare = node.bare := by
  cases node <;> rfl

@[simp]
theorem Node.parent_bare (node : Node) : node.bare.parent = node.parent := by
  cases node <;> rfl

theorem Node.term?_bare (node : Node) : node.bare.term? = node.term?.map Term.bare := by
  cases node <;> rfl

theorem Node.mirrors_bare (node : Node) : node.Mirrors (fun id => id) node.bare := by
  cases node with
  | term term => exact .term rfl (map_renumber_id _).symm
  | proxy proxy => exact .proxy rfl rfl (Option.map_id_apply).symm rfl

namespace Terminology

/-- The terminology without its paths. -/
def bare (t : Terminology) : Terminology := { t with nodes := t.nodes.map Node.bare }

/-- The terminology without the paths of the nodes from a number on. -/
def bareFrom (t : Terminology) (start : Nat) : Terminology :=
  { t with nodes := t.nodes.mapIdx fun id node => if id < start then node else node.bare }

variable {t : Terminology} {id start : Nat}

/-! ### What is there without paths -/

@[simp]
theorem node?_bare (t : Terminology) (id : Nat) : t.bare.node? id = (t.node? id).map Node.bare :=
  List.getElem?_map

theorem term?_bare (t : Terminology) (id : Nat) : t.bare.term? id = (t.term? id).map Term.bare := by
  rw [term?, node?_bare, term?]
  cases t.node? id with
  | none => rfl
  | some node => exact node.term?_bare

@[simp]
theorem scope_bare (t : Terminology) (scope : Option Nat) : t.bare.scope scope = t.scope scope := by
  cases scope with
  | none => rfl
  | some id =>
    rw [Terminology.scope, term?_bare, Terminology.scope]
    cases t.term? id <;> rfl

/-- Without its paths everything looks the same. -/
theorem mirrors_bare (t : Terminology) : t.Mirrors (fun id => id) (fun _ => True) t.bare := by
  refine mirrors_of_same (fun id => ?_) fun _ => rfl
  rw [node?_bare]
  cases t.node? id with
  | none => exact .none
  | some node => exact .some node.mirrors_bare

/-- Checking all nodes gives and records the same. -/
@[simp]
theorem checkLinks_bare (t : Terminology) : t.bare.checkLinks = t.checkLinks := by
  refine t.mirrors_bare.checkLinks_eq ?_
  rw [bare, List.forall₂_map_right_iff, List.forall₂_same]
  exact fun node _ => node.mirrors_bare

/-- A walk goes the same way. -/
@[simp]
theorem subtree_bare (t : Terminology) (id : Nat) : t.bare.subtree id = t.subtree id :=
  subtree_congr t.scope_bare id

/-! ### Deriving paths in order -/

theorem node?_bareFrom (t : Terminology) (start id : Nat) :
    (t.bareFrom start).node? id =
      (t.node? id).map fun node => if id < start then node else node.bare :=
  List.getElem?_mapIdx

theorem bare_bareFrom (t : Terminology) (start : Nat) : (t.bareFrom start).bare = t.bare := by
  refine ext_node? rfl fun id => ?_
  rw [node?_bare, node?_bareFrom, node?_bare, Option.map_map]
  congr 1
  funext node
  by_cases hid : id < start <;> simp [hid]

@[simp]
theorem checkLinks_bareFrom (t : Terminology) (start : Nat) :
    (t.bareFrom start).checkLinks = t.checkLinks := by
  rw [← checkLinks_bare, bare_bareFrom, checkLinks_bare]

theorem scope_bareFrom (t : Terminology) (start : Nat) (scope : Option Nat) :
    (t.bareFrom start).scope scope = t.scope scope := by
  rw [← scope_bare, bare_bareFrom, scope_bare]

@[simp]
theorem subtree_bareFrom (t : Terminology) (start id : Nat) :
    (t.bareFrom start).subtree id = t.subtree id := by
  rw [← subtree_bare, bare_bareFrom, subtree_bare]

/-- Nothing is missing if no nodes are bare. -/
theorem bareFrom_size (t : Terminology) : t.bareFrom t.size = t := by
  refine ext_node? rfl fun id => ?_
  rw [node?_bareFrom]
  cases hnode : t.node? id with
  | none => rfl
  | some node => rw [Option.map_some, if_pos (lt_size_of_node? hnode)]

theorem term?_bareFrom_of_lt (hid : id < start) : (t.bareFrom start).term? id = t.term? id := by
  rw [term?, node?_bareFrom, term?]
  simp [hid]

/-- The term above the first bare node is not bare. -/
theorem Arranged.parent?_bareFrom (h : t.Arranged) (start : Nat) :
    (t.bareFrom start).parent? start = t.parent? start := by
  rw [parent?, parent?, node?_bareFrom]
  cases hnode : t.node? start with
  | none => rfl
  | some node =>
    simp only [Option.map_some, Option.bind_some, Nat.lt_irrefl, if_false, Node.parent_bare]
    cases hparent : node.parent with
    | none => rfl
    | some above => exact term?_bareFrom_of_lt ((h.placed start node hnode).parent above hparent).1

/-- The paths of the first bare node are derived from those of the term above, which are there. -/
theorem Arranged.refresh_bareFrom (h : t.Arranged) (start : Nat) :
    (t.bareFrom start).refresh start = t.bareFrom (start + 1) := by
  refine ext_node? rfl fun id => ?_
  rw [refresh, node?_modify, h.parent?_bareFrom, node?_bareFrom, node?_bareFrom, Option.map_map]
  cases hnode : t.node? id with
  | none => rfl
  | some node =>
    by_cases hid : id = start
    · subst hid
      cases node with
      | proxy proxy => simp [Node.bare, Node.mapTerm]
      | term term =>
        have hpaths := (h.placed id _ hnode).paths term rfl
        have hparent : t.parent? id = term.parent.bind t.term? := by
          rw [parent?, hnode]
          rfl
        simp only [Option.map_some, Function.comp_apply, if_true, Nat.lt_irrefl, if_false,
          Nat.lt_succ_self, Node.bare, Node.mapTerm, Term.bare, hparent]
        rw [← hpaths]
    · have hlt : id < start + 1 ↔ id < start := by omega
      simp [hid, hlt]

theorem Arranged.foldl_refresh_bareFrom (h : t.Arranged) (start count : Nat) :
    (List.range' start count).foldl refresh (t.bareFrom start) = t.bareFrom (start + count) := by
  induction count generalizing start with
  | zero => rfl
  | succ count ih =>
    rw [List.range'_succ, List.foldl_cons, h.refresh_bareFrom, ih, Nat.add_right_comm]
    rfl

/-- The paths of a subtree that comes last are derived one after the other. -/
theorem Arranged.regenerate_bareFrom (h : t.Arranged) {count : Nat}
    (hsubtree : t.subtree start = List.range' start count) (hsize : start + count = t.size) :
    (t.bareFrom start).regenerate start = t := by
  unfold regenerate
  rw [subtree_bareFrom, hsubtree, h.foldl_refresh_bareFrom, hsize, bareFrom_size]

end Terminology

end TermAtlas
