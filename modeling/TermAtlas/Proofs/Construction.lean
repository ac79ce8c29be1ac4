import TermAtlas.Proofs.Apart
import TermAtlas.Proofs.Bare
import TermAtlas.Proofs.Building

/-!
# Construction in place

Constructing a declaration adds its nodes one by one, and enters each child when it is there with
everything below it. Expanding a declaration gives a tree, which is then laid out as a whole. Both come
to the same: they record the same, fail for the same reason, and the nodes that were constructed are the
layout of the tree, but for the paths. While the children of a term are constructed, what is there is the
layout of the tree that has the children so far. Each new child goes last among them, because names are
apart.

## What is proved

* `outcome_constructWithin` — construction gives and records what expansion does.
* `enter_sketch` — one more child.
* `state_forEach_constructChild` — all children, by induction from one more child.
* `state_constructWithin` — what was constructed is the layout of the tree.
-/

namespace TermAtlas

namespace Expansion

theorem links_append (start : Nat) (es others : List Expansion) :
    links start (es ++ others) = links start es ++ links (start + sizeOfAll es) others := by
  induction es generalizing start with
  | nil => rfl
  | cons e rest ih =>
    rw [List.cons_append, links, links, ih, sizeOfAll, List.cons_append, Nat.add_assoc]

theorem nodesOfAll_append (start : Nat) (above : Option (Nat × XPaths)) (es others : List Expansion) :
    nodesOfAll start above (es ++ others) =
      nodesOfAll start above es ++ nodesOfAll (start + sizeOfAll es) above others := by
  induction es generalizing start with
  | nil => rfl
  | cons e rest ih =>
    rw [List.cons_append, nodesOfAll, nodesOfAll, ih, sizeOfAll, List.append_assoc, Nat.add_assoc]

theorem names_links (start : Nat) (es : List Expansion) :
    Roster.names (links start es) = es.map Expansion.name := by
  induction es generalizing start with
  | nil => rfl
  | cons e rest ih =>
    rw [links, Roster.names_cons, ih, List.map_cons]
    rfl

end Expansion

variable {registry : Option Registry} {fresh : List Identity} {names : List Name} {d : Declaration}
  {e : Expansion}

/-- A tree has the name of the declaration that it expands. -/
theorem Declaration.name_of_expandWithin
    (h : (d.expandWithin registry fresh names).result = .ok e) : e.name = d.name := by
  cases Declaration.expands_of_expandWithin h <;> rfl

/-- Trees have the names of the declarations that they expand. -/
theorem Declaration.map_name_of_expanded {ds : List Declaration} {es : List Expansion}
    (h : ds.map (fun d => (d.expand registry).result) = es.map Except.ok) :
    es.map Expansion.name = Roster.names ds := by
  induction ds generalizing es with
  | nil =>
    obtain rfl := List.map_eq_nil_iff.1 h.symm
    rfl
  | cons d rest ih =>
    obtain ⟨e, es, rfl, he, hes⟩ := List.map_eq_cons_iff.1 h.symm
    rw [List.map_cons, Roster.names_cons, ih hes.symm, name_of_expandWithin he.symm]
    rfl

namespace Terminology

/-- The terminology with a tree behind its nodes for which no paths are derived yet. -/
def sketch (t : Terminology) (above : Option (Nat × XPaths)) (e : Expansion) : Terminology :=
  { t with nodes := t.nodes ++ (e.nodes t.size above).map Node.bare }

variable {t : Terminology} {above : Option (Nat × XPaths)} {name : Name} {traits : Traits}
  {done es : List Expansion}

theorem size_sketch (t : Terminology) (above : Option (Nat × XPaths)) (e : Expansion) :
    (t.sketch above e).size = t.size + e.size := by
  unfold sketch size
  rw [List.length_append, List.length_map, Expansion.length_nodes]

theorem node?_sketch_of_lt {id : Nat} (hid : id < t.size) : (t.sketch above e).node? id = t.node? id :=
  List.getElem?_append_left hid

theorem node?_sketch_of_le {id : Nat} (hid : t.size ≤ id) :
    (t.sketch above e).node? id = (e.nodes t.size above)[id - t.size]?.map Node.bare := by
  rw [node?, sketch, List.getElem?_append_right hid, List.getElem?_map]
  rfl

/-- What is changed of the first node behind those that were there. -/
theorem modify_size_append (t : Terminology) (node : Node) (rest : List Node) (f : Node → Node) :
    (t.nodes ++ node :: rest).modify t.size f = t.nodes ++ f node :: rest := by
  rw [size, List.modify_eq_take_drop, List.take_left, List.drop_left]
  rfl

/-- A term to whose children one more tree is added and entered is the term with one more child. -/
theorem enter_sketch (hname : e.name ∉ done.map Expansion.name) :
    ((t.sketch above (.term name traits done)).sketch
        (some (t.size, XPaths.below (above.map (·.2)) traits)) e).enter t.size
        ⟨e.name, (t.sketch above (.term name traits done)).size⟩ =
      t.sketch above (.term name traits (done ++ [e])) := by
  have hsize : (t.sketch above (.term name traits done)).size =
      t.size + 1 + Expansion.sizeOfAll done := by
    rw [size_sketch, Expansion.size]
    omega
  have hnew : e.name ∉ Roster.names (Expansion.links (t.size + 1) done) := by
    rwa [Expansion.names_links]
  have hput : Roster.put ⟨e.name, t.size + 1 + Expansion.sizeOfAll done⟩
      (Expansion.links (t.size + 1) done) = Expansion.links (t.size + 1) (done ++ [e]) := by
    rw [Roster.put_of_not_mem hnew, Expansion.links_append]
    rfl
  rw [hsize]
  unfold enter
  rw [sketch, hsize, sketch, sketch, Expansion.nodes, Expansion.nodes, List.map_cons, List.map_cons,
    List.append_assoc, List.cons_append, modify_size_append, Expansion.nodesOfAll_append,
    Expansion.nodesOfAll, Expansion.nodesOfAll, List.append_nil, List.map_append, ← hput]
  rfl

end Terminology

open Work

variable {t : Terminology} {above : Option (Nat × XPaths)}

/-! ### What construction gives -/

/-- Work for each item gives and records what a computation for each item does. -/
theorem Work.outcome_forEach {α β : Type} {f : α → Work Unit} {g : α → Logged β}
    (hf : ∀ a t, (f a).outcome t = (fun _ => ()) <$> g a) (items : List α) (t : Terminology) :
    (forEach f items).outcome t = (fun _ => ()) <$> Logged.traverse g items := by
  induction items generalizing t with
  | nil => rfl
  | cons a rest ih => simp [forEach, Logged.traverse, outcome_bind, hf, ih]

/-- Construction records what expansion does, and fails when it does; it gives the number of the first
node that it adds. -/
theorem Declaration.outcome_constructWithin (registry : Option Registry) (parent : Option Nat)
    (fresh : List Identity) (names : List Name) (d : Declaration) (t : Terminology) :
    (d.constructWithin registry parent fresh names).outcome t =
      (fun _ => t.size) <$> d.expandWithin registry fresh names := by
  induction parent, fresh, names, d using Declaration.constructWithin.induct generalizing t with
  | case1 parent fresh names d hfresh ih =>
    rw [constructWithin_of_mem hfresh, expandWithin, dif_pos hfresh, outcome_bind, map_bind]
    congr 1
    funext resolved
    cases hpointer : resolved.settings.pointer? .proxy with
    | some pointer => simp [outcome_bind]
    | none =>
      have hchild : ∀ id child t,
          (constructChild registry (d.id.without fresh) (names ++ [d.name]) id child).outcome t =
            (fun _ => ()) <$> child.expandWithin registry (d.id.without fresh) (names ++ [d.name]) := by
        intro id child t
        simp [constructChild, outcome_bind, ih]
      simp [outcome_bind, outcome_forEach (hchild _)]
  | case2 parent fresh names d hfresh =>
    rw [constructWithin, dif_neg hfresh, expandWithin, dif_neg hfresh]
    rfl

/-! ### What construction leaves behind -/

/-- A child that is constructed has been expanded. -/
theorem Declaration.outcome_constructChild (id : Nat) (child : Declaration) (t : Terminology) :
    (constructChild registry fresh names id child).outcome t =
      (fun _ => ()) <$> child.expandWithin registry fresh names := by
  simp [constructChild, outcome_bind, outcome_constructWithin]

/-- If its name is new, a child that is constructed goes last. -/
theorem Declaration.state_constructChild {name : Name} {traits : Traits} {child : Declaration}
    {done : List Expansion} (hexpand : (child.expandWithin registry fresh names).result = .ok e)
    (hone : ∀ t above,
      (child.constructWithin registry (above.map (·.1)) fresh names).state t = t.sketch above e)
    (hname : child.name ∉ done.map Expansion.name) :
    (constructChild registry fresh names t.size child).state (t.sketch above (.term name traits done)) =
      t.sketch above (.term name traits (done ++ [e])) := by
  have hresult : ((child.constructWithin registry (some t.size) fresh names).outcome
      (t.sketch above (.term name traits done))).result =
        .ok (t.sketch above (.term name traits done)).size := by
    rw [outcome_constructWithin, Logged.result_map, hexpand]
    rfl
  have hstate : (child.constructWithin registry (some t.size) fresh names).state
      (t.sketch above (.term name traits done)) = (t.sketch above (.term name traits done)).sketch
        (some (t.size, XPaths.below (above.map (·.2)) traits)) e :=
    hone _ (some (t.size, _))
  rw [← name_of_expandWithin hexpand] at hname
  rw [constructChild, state_bind_of_ok hresult, state_change, hstate, ← name_of_expandWithin hexpand,
    Terminology.enter_sketch hname]

/-- If the names of the children are apart, constructing them adds them to a term one by one. -/
theorem Declaration.state_forEach_constructChild {name : Name} {traits : Traits}
    {items : List Declaration} {done es : List Expansion}
    (hexpand : items.map (fun child => (child.expandWithin registry fresh names).result) =
      es.map Except.ok)
    (hone : ∀ child ∈ items, ∀ e, (child.expandWithin registry fresh names).result = .ok e →
      ∀ t above,
        (child.constructWithin registry (above.map (·.1)) fresh names).state t = t.sketch above e)
    (hnames : (done.map Expansion.name ++ Roster.names items).Nodup) :
    (Work.forEach (constructChild registry fresh names t.size) items).state
      (t.sketch above (.term name traits done)) = t.sketch above (.term name traits (done ++ es)) := by
  induction items generalizing done es with
  | nil =>
    obtain rfl : es = [] := by simpa using hexpand.symm
    rw [List.append_nil]
    rfl
  | cons child rest ih =>
    cases es with
    | nil => cases hexpand
    | cons e others =>
      rw [List.map_cons, List.map_cons, List.cons.injEq] at hexpand
      obtain ⟨hchild, hrest⟩ := hexpand
      have hnames' : ((done ++ [e]).map Expansion.name ++ Roster.names rest).Nodup := by
        rw [List.map_append, List.append_assoc, List.map_singleton, name_of_expandWithin hchild]
        exact hnames
      have hnew : child.name ∉ done.map Expansion.name := by
        intro hmem
        exact (List.nodup_append.1 hnames).2.2 _ hmem _ List.mem_cons_self rfl
      have hresult : ((constructChild registry fresh names t.size child).outcome
          (t.sketch above (.term name traits done))).result = .ok () := by
        rw [outcome_constructChild, Logged.result_map, hchild]
        rfl
      rw [Work.forEach, state_bind_of_ok hresult,
        state_constructChild hchild (hone child List.mem_cons_self e hchild) hnew,
        ih hrest (fun other hother => hone other (List.mem_cons_of_mem _ hother)) hnames',
        List.append_assoc]
      rfl

/-- What was constructed is the layout of the expansion, but for the paths. -/
theorem Declaration.state_constructWithin (hregistry : ∀ r, registry = some r → r.Apart)
    (h : d.Apart) (hexpand : (d.expandWithin registry fresh names).result = .ok e) (t : Terminology)
    (above : Option (Nat × XPaths)) :
    (d.constructWithin registry (above.map (·.1)) fresh names).state t = t.sketch above e := by
  induction fresh, names, d using expandWithin.induct generalizing e t above with
  | case1 fresh names d hfresh ih =>
    rw [expandWithin, dif_pos hfresh, Logged.result_bind_eq_ok_iff] at hexpand
    obtain ⟨resolved, hresolve, hexpand⟩ := hexpand
    rw [constructWithin_of_mem hfresh, state_ofLogged_bind hresolve]
    cases hpointer : resolved.settings.pointer? .proxy with
    | some pointer =>
      simp only [hpointer, Logged.result_bind_eq_ok_iff, Logged.result_pure, Except.ok.injEq] at hexpand
      obtain ⟨-, -, rfl⟩ := hexpand
      rfl
    | none =>
      simp only [hpointer, Logged.result_bind_eq_ok_iff, Logged.result_pure, Except.ok.injEq,
        Logged.result_traverse_eq_ok_iff] at hexpand
      obtain ⟨-, -, -, -, children, hchildren, rfl⟩ := hexpand
      have hapart := h.resolve hregistry hresolve
      rw [state_ofLogged_bind (Logged.result_note _), state_ofLogged_bind (Logged.result_notes _)]
      refine (state_bind_of_ok (x := Work.add _) (Logged.result_pure _)).trans ?_
      rw [state_bind_pure]
      have hone : ∀ child ∈ resolved.children, ∀ e,
          (child.expandWithin registry (d.id.without fresh) (names ++ [d.name])).result = .ok e →
          ∀ t above, (child.constructWithin registry (above.map (·.1)) (d.id.without fresh)
            (names ++ [d.name])).state t = t.sketch above e := by
        intro child hmem e hchild t above
        exact ih child (hapart.of_mem hmem) hchild t above
      have hnames : (([] : List Expansion).map Expansion.name ++
          Roster.names resolved.children).Nodup := hapart.nodup
      exact state_forEach_constructChild hchildren hone hnames
  | case2 fresh names d hfresh =>
    rw [expandWithin, dif_neg hfresh] at hexpand
    cases hexpand

/-- Constructing a declaration below a term records what expanding it does. -/
theorem Declaration.outcome_construct (d : Declaration) (registry : Option Registry) (parent : Nat)
    (t : Terminology) :
    (d.construct registry parent).outcome t = (fun _ => t.size) <$> d.expand registry :=
  outcome_constructWithin registry (some parent) _ [] d t

/-- Constructing a declaration below a term adds the layout of its expansion, but for the paths. -/
theorem Declaration.state_construct (hregistry : ∀ r, registry = some r → r.Apart) (h : d.Apart)
    (hexpand : (d.expand registry).result = .ok e) (parent : Term) (t : Terminology) :
    (d.construct registry parent.id).state t = t.sketch (some (parent.id, parent.paths)) e :=
  state_constructWithin hregistry h hexpand t (some (parent.id, parent.paths))

end TermAtlas
