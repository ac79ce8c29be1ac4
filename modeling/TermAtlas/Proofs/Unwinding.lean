import TermAtlas.Proofs.Walk
import TermAtlas.Terminology.Unwinding

/-!
# The loop that derives paths

The loop goes through the nodes below a node in the order of a walk, for it puts the children of a node
on the stack, the first one on top. Deriving paths changes no scope, so that what is still to be gone
through does not depend on what was derived. And it changes one node only, so that what was recorded of
a node is where it is in the end.

So the loop comes to an end, and does what `regenerate` does by recursion.

## What is proved

* `Unwinding.turn_eq` — what one turn does, whatever is on top of the stack.
* `Listed.reaches` — what the loop does until the stack is as before, by induction on what is listed.
* `Arranged.eval_turn` — the loop comes to an end, with the paths that are derived by recursion.
-/

namespace TermAtlas.Terminology

open StateTransition

variable {t u : Terminology} {id : Nat} {ids : List Nat} {links : List Link}

/-! ### One turn -/

theorem node?_refresh_of_ne {changed : Nat} (hne : id ≠ changed) :
    (u.refresh changed).node? id = u.node? id := by
  rw [refresh, node?_modify]
  simp [hne]

theorem term?_refresh_self (u : Terminology) (id : Nat) :
    ((u.refresh id).term? id).map Term.children = (u.term? id).map Term.children := by
  rw [refresh, term?, node?_modify, term?]
  cases u.node? id with
  | none => rfl
  | some node => cases node <;> simp [Node.mapTerm, Node.term?]

/-- What is not a term has no paths. -/
theorem refresh_of_term?_eq_none (h : u.term? id = none) : u.refresh id = u := by
  refine ext_node? rfl fun other => ?_
  by_cases hother : other = id
  · subst hother
    rw [refresh, node?_modify]
    cases hnode : u.node? other with
    | none => rfl
    | some node =>
      cases node with
      | term term => cases h.symm.trans (term?_of_node? hnode)
      | proxy proxy => simp [Node.mapTerm]
  · exact node?_refresh_of_ne hother

/-- Deriving paths changes no scope. -/
theorem scope_refresh (u : Terminology) (changed : Nat) (scope : Option Nat) :
    (u.refresh changed).scope scope = u.scope scope := by
  cases scope with
  | none => rfl
  | some id =>
    by_cases hid : id = changed
    · subst hid
      cases hterm : u.term? id with
      | none => rw [refresh_of_term?_eq_none hterm]
      | some term =>
        have hchildren := u.term?_refresh_self id
        rw [hterm, Option.map_some, Option.map_eq_some_iff] at hchildren
        obtain ⟨term', hterm', hsame⟩ := hchildren
        rw [scope_of_term? hterm', scope_of_term? hterm, hsame]
    · rw [Terminology.scope, Terminology.scope, term?, term?, node?_refresh_of_ne hid]

/-- One turn derives the paths of the node on top and goes on with its children. -/
theorem Unwinding.turn_eq (u : Terminology) (id : Nat) (stack : List Nat) (log : List Event) :
    turn ⟨u, id :: stack, log⟩ =
      some ⟨u.refresh id, (u.scope (some id)).map Link.node ++ stack,
        log ++ (u.refresh id).locations [id]⟩ := by
  rw [turn]
  cases hterm : u.term? id with
  | none =>
    have hscope : u.scope (some id) = [] := by rw [scope, hterm]; rfl
    have hlocations : u.locations [id] = [] := by simp [locations, hterm]
    simp only [hterm, hscope, refresh_of_term?_eq_none hterm, hlocations, List.map_nil, List.nil_append,
      List.append_nil]
  | some term =>
    simp only [hterm, scope_of_term? hterm]

/-! ### All turns -/

theorem node?_foldl_refresh_of_not_mem (hid : id ∉ ids) :
    (ids.foldl refresh u).node? id = u.node? id := by
  induction ids generalizing u with
  | nil => rfl
  | cons changed rest ih =>
    rw [List.mem_cons, not_or] at hid
    rw [List.foldl_cons, ih hid.2, node?_refresh_of_ne hid.1]

theorem scope_foldl_refresh (u : Terminology) (ids : List Nat) (scope : Option Nat) :
    (ids.foldl refresh u).scope scope = u.scope scope := by
  induction ids generalizing u with
  | nil => rfl
  | cons changed rest ih => rw [List.foldl_cons, ih, scope_refresh]

theorem locations_append (t : Terminology) (ids others : List Nat) :
    t.locations (ids ++ others) = t.locations ids ++ t.locations others := by
  simp [locations]

/-- Where a node is depends on this node only. -/
theorem locations_congr (h : ∀ id ∈ ids, u.node? id = t.node? id) : u.locations ids = t.locations ids := by
  rw [locations, locations]
  congr 1
  refine List.filterMap_congr fun id hid => ?_
  rw [term?, term?, h id hid]

/-- Where some nodes are does not change any more when the paths of others are derived. -/
theorem locations_foldl_refresh {others : List Nat} (hdisjoint : ∀ id ∈ ids, id ∉ others) :
    (others.foldl refresh u).locations ids = u.locations ids :=
  locations_congr fun id hid => node?_foldl_refresh_of_not_mem (hdisjoint id hid)

/-- What is on the stack below nodes that are listed is reached when the paths of all that is listed with
them are derived. -/
theorem Listed.reaches (h : t.Listed links ids) (hnodup : ids.Nodup)
    (hscope : ∀ scope, u.scope scope = t.scope scope) (stack : List Nat) (log : List Event) :
    StateTransition.Reaches Unwinding.turn ⟨u, links.map Link.node ++ stack, log⟩
      ⟨ids.foldl refresh u, stack, log ++ (ids.foldl refresh u).locations ids⟩ := by
  induction h generalizing u stack log with
  | nil =>
    rw [show (List.foldl refresh u []).locations [] = [] from rfl, List.append_nil]
    exact .refl
  | @cons link rest below after _ _ ihbelow ihafter =>
    obtain ⟨hhead, hnodup⟩ := List.nodup_cons.1 hnodup
    obtain ⟨hbelow, hafter, hdisjoint⟩ := List.nodup_append.1 hnodup
    have hturn := Unwinding.turn_eq u link.node (rest.map Link.node ++ stack) log
    rw [hscope] at hturn
    -- three states: after the node itself, after what is below it, and after the rest
    have hscope₁ : ∀ scope, (u.refresh link.node).scope scope = t.scope scope := fun scope => by
      rw [scope_refresh, hscope]
    have hscope₂ : ∀ scope, (below.foldl refresh (u.refresh link.node)).scope scope = t.scope scope :=
      fun scope => by rw [scope_foldl_refresh, hscope₁]
    have hdone : (List.foldl refresh u (link.node :: (below ++ after))).locations
          (link.node :: (below ++ after)) =
        (u.refresh link.node).locations [link.node] ++
          (below.foldl refresh (u.refresh link.node)).locations below ++
          (after.foldl refresh (below.foldl refresh (u.refresh link.node))).locations after := by
      rw [← List.singleton_append, locations_append, locations_append, List.foldl_append, List.foldl_append,
        ← List.append_assoc]
      congr 2
      · rw [← List.foldl_append]
        refine locations_foldl_refresh fun id hid => ?_
        rwa [List.mem_singleton.1 hid]
      · exact locations_foldl_refresh fun id hid hafter' => hdisjoint id hid id hafter' rfl
    rw [hdone, ← List.append_assoc, ← List.append_assoc, List.foldl_cons, List.foldl_append]
    exact .head hturn ((ihbelow hbelow hscope₁ _ _).trans (ihafter hafter hscope₂ _ _))

/-- From a node down, the loop comes to an end. It has derived the paths that are derived by recursion,
and recorded where every term is then. -/
theorem Arranged.eval_turn (h : t.Arranged) (hscope : ∀ scope, u.scope scope = t.scope scope) (id : Nat)
    (log : List Event) :
    eval Unwinding.turn ⟨u, [id], log⟩ =
      Part.some ⟨u.regenerate id, [], log ++ (u.regenerate id).locations (t.subtree id)⟩ := by
  -- the loop never looks at the name that the node is listed under
  have hlisted := h.listed_subtree ⟨⟨""⟩, id⟩
  have hreaches := hlisted.reaches (h.nodup_subtree id) hscope [] log
  rw [List.append_nil, ← subtree_congr hscope] at hreaches
  rw [← subtree_congr hscope]
  exact Part.eq_some_iff.2 (mem_eval.2 ⟨hreaches, rfl⟩)

theorem Arranged.run_singleton (h : t.Arranged) (hscope : ∀ scope, u.scope scope = t.scope scope)
    (id : Nat) (log : List Event) :
    Unwinding.run ⟨u, [], log⟩ [id] =
      Part.some ⟨u.regenerate id, [], log ++ (u.regenerate id).locations (t.subtree id)⟩ := by
  rw [Unwinding.run, h.eval_turn hscope, Part.bind_some]
  rfl

end TermAtlas.Terminology
