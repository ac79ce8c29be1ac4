import TermAtlas.Proofs.InPlace

/-!
# What a graft changes

A graft that succeeds writes in two places only: behind all old nodes, where the new ones go, and in the
entry of one name among the children of the term that it builds below. In particular the pointer of the
graft still leads to this term. Names that lead to a term are looked up among the roots and below terms
that lie above it, even where proxies are followed on the way; numbers increase downwards, so what the
graft changed is not looked up.

## What is proved

* `Coherent.le_of_leads` — names that are looked up below a term do not lead up again.
* `Coherent.locate_attach` — the pointer to a term still leads to it when a tree was attached below it.
* `Reached.graft_frame` — what a graft that succeeds has changed, and what it has not.
-/

namespace TermAtlas

namespace Terminology

variable {t : Terminology} {parent : Term} {e : Expansion} {scope : Option Nat} {id target : Nat}
  {inProgress : List Nat} {names : List Name} {stops : List Nat} {p : Pointer}

/-! ### Names lead down -/

/-- What a node stands for is below the term whose child the node is. -/
theorem Coherent.lt_of_follow (h : t.Coherent) {link : Link} (hlink : link ∈ t.scope (some id))
    (hfollow : t.followWithin inProgress link.node = .ok target) : id < target := by
  obtain ⟨chain, -, hne, hdescends⟩ := h.exists_spanWithin hlink hfollow
  obtain ⟨c, hc⟩ := List.exists_mem_of_ne_nil chain hne
  exact Nat.lt_of_lt_of_le (hdescends.lt_of_mem h rfl hc) (hdescends.le_of_mem h rfl hc)

/-- Names that are looked up below a term do not lead up again. -/
theorem Coherent.le_of_leads (h : t.Coherent) (hleads : t.Leads inProgress scope names stops)
    (hscope : scope = some id) (hlast : stops.getLast?.or (some id) = some target) : id ≤ target := by
  induction hleads generalizing id with
  | nil => exact Nat.le_of_eq (Option.some.inj hlast)
  | @cons scope name names next stop stops hchild hfollow hrest ih =>
    subst hscope
    obtain ⟨link, hlink, -, rfl⟩ := exists_link_of_child? hchild
    have hless := h.lt_of_follow hlink hfollow
    rw [getLast?_cons_or] at hlast
    have hle := ih rfl hlast
    omega

/-! ### Looking up after a graft -/

/-- The children of the term that a tree is attached to. -/
theorem scope_attach_self (hparent : t.term? parent.id = some parent) :
    (t.attach parent e).scope (some parent.id) = Roster.put ⟨e.name, t.size⟩ parent.children := by
  have hterm : (t.attach parent e).term? parent.id = some (parent.adopt ⟨e.name, t.size⟩) := by
    rw [term?_attach_of_lt (lt_size_of_term? hparent), hparent, Option.map_some, if_pos rfl]
  rw [scope_of_term? hterm]
  rfl

/-- What is found in a scope changes under one name below one term only. -/
theorem child?_attach {name : Name} {next : Nat} (hparent : t.term? parent.id = some parent)
    (hne : scope = some parent.id → e.name ≠ name) (hchild : t.child? scope name = some next) :
    (t.attach parent e).child? scope name = some next := by
  rw [← hchild]
  cases scope with
  | none => rfl
  | some id =>
    obtain ⟨link, hlink, -⟩ := exists_link_of_child? hchild
    obtain ⟨term, hterm, -⟩ := exists_term_of_mem_scope hlink
    have hid := lt_size_of_term? hterm
    by_cases heq : id = parent.id
    · subst heq
      rw [child?, child?, scope_attach_self hparent, scope_of_term? hparent]
      exact congrArg (Option.map Link.node) (Roster.find?_put_of_ne (hne rfl) parent.children)
    · rw [child?, scope_attach_of_ne hid heq, child?]

/-- Names lead to the same term up there as soon as what they meet stands for the same. -/
theorem Coherent.leads_attach (h : t.Coherent) (hparent : t.term? parent.id = some parent)
    (hstep : ∀ next target, t.followWithin inProgress next = .ok target → target ≤ parent.id →
      (t.attach parent e).followWithin inProgress next = .ok target)
    (hleads : t.Leads inProgress scope names stops) (hlast : stops.getLast?.or scope = some target)
    (hle : target ≤ parent.id) : (t.attach parent e).Leads inProgress scope names stops := by
  induction hleads with
  | nil => exact .nil
  | @cons scope name names next stop stops hchild hfollow hrest ih =>
    rw [getLast?_cons_or] at hlast
    have hstop : stop ≤ parent.id := Nat.le_trans (h.le_of_leads hrest rfl hlast) hle
    obtain ⟨link, hlink, -, rfl⟩ := exists_link_of_child? hchild
    refine .cons (child?_attach hparent ?_ hchild) (hstep link.node stop hfollow hstop) (ih hlast)
    rintro rfl
    have hless := h.lt_of_follow hlink hfollow
    omega

/-- A node stands for the same term, if this term is not below the one that a tree is attached to. -/
theorem Coherent.followWithin_attach (h : t.Coherent) (hparent : t.term? parent.id = some parent)
    (hfollow : t.followWithin inProgress id = .ok target) (hle : target ≤ parent.id) :
    (t.attach parent e).followWithin inProgress id = .ok target := by
  refine followWithin_induction (motive := fun inProgress id target => target ≤ parent.id →
    (t.attach parent e).followWithin inProgress id = .ok target) ?_ ?_ hfollow hle
  · intro inProgress id term hterm _
    obtain ⟨term', hterm', -⟩ := exists_term?_attach parent e hterm
    exact followWithin_term hterm' inProgress
  · intro inProgress id proxy stops target hnode hid hleads hlast ih hle
    have hnode' := node?_attach_of_proxy parent e hnode
    refine (followWithin_proxy_eq_ok_iff hnode').2 ⟨hid, stops, ?_, hlast⟩
    refine h.leads_attach hparent ih hleads ?_ hle
    rw [hlast, Option.some_or]

/-- The pointer to a term still leads to it when a tree was attached below it. -/
theorem Coherent.locate_attach (h : t.Coherent) (hparent : t.term? parent.id = some parent)
    (hlocate : t.locate none p = .ok parent.id) : (t.attach parent e).locate none p = .ok parent.id := by
  obtain ⟨stops, hleads, hlast⟩ := locate_eq_ok_iff.1 hlocate
  refine locate_eq_ok_iff.2 ⟨stops, ?_, hlast⟩
  refine h.leads_attach hparent (fun _ _ => h.followWithin_attach hparent) hleads ?_ (Nat.le_refl _)
  rw [hlast, Option.some_or]

/-- The name of the tree, looked up where it was attached, leads to what its outermost node stands for. -/
theorem Coherent.locate_join_attach (h : t.Coherent) (hparent : t.term? parent.id = some parent)
    (hlocate : t.locate none p = .ok parent.id) (hfollow : (t.attach parent e).follow t.size = .ok target) :
    (t.attach parent e).locate none (p.join e.name) = .ok target := by
  obtain ⟨-, hreaches⟩ := locate_eq_ok_iff_reaches.1 (h.locate_attach (e := e) hparent hlocate)
  have hchild : (t.attach parent e).child? (some parent.id) e.name = some t.size := by
    rw [child?, scope_attach_self hparent]
    exact congrArg (Option.map Link.node)
      (Roster.find?_put_self (⟨e.name, t.size⟩ : Link) parent.children)
  refine locate_eq_ok_iff_reaches.2 ⟨by simp [Pointer.join], ?_⟩
  rw [Pointer.join, reaches_append_iff]
  exact ⟨some parent.id, hreaches, reaches_cons_iff.2
    ⟨t.size, target, hchild, hfollow, reaches_nil_iff.2 rfl⟩⟩

/-! ### The whole change -/

/-- What a graft that succeeds has done to a reached terminology. The new nodes come last, in the order of
a walk through the tree that they make up. The roots are the same, and so is every old node but the one
that the pointer leads to, of which only the children have changed: one entry leads to the new tree. This
is what a graft in place leaves behind, too. -/
theorem Reached.graft_frame (h : t.Reached) {d : Declaration} {registry : Option Registry}
    {grown : Terminology} (hgraft : (t.graft p d registry).result = .ok (grown, id)) :
    ∃ parent e children, t.retrieve? p = some parent ∧ Declaration.Expands registry d e ∧
      id = t.size ∧ grown.size = t.size + e.size ∧
      grown.Shows (some parent.id) id e ∧ grown.subtree id = List.range' t.size e.size ∧
      (∀ new node, grown.node? new = some node → node.id = new) ∧
      grown.roots = t.roots ∧
      (∀ old < t.size, old ≠ parent.id → grown.node? old = t.node? old) ∧
      t.node? parent.id = some (.term parent) ∧
      grown.node? parent.id = some (.term { parent with children := children }) ∧
      ((∃ before link after, parent.children = before ++ link :: after ∧ link.name = d.name ∧
          d.name ∉ Roster.names before ∧ children = before ++ ⟨d.name, id⟩ :: after) ∨
        (d.name ∉ Roster.names parent.children ∧ children = parent.children ++ [⟨d.name, id⟩])) ∧
      (∃ target, grown.resolveProxy id = .ok target ∧
        grown.retrieve? (p.join d.name) = some target ∧
        ∀ term, grown.node? id = some (.term term) → target = term) ∧
      (d.Apart → (∀ r, registry = some r → r.Apart) →
        t.graftInPlace p d registry = Part.some (⟨(t.graft p d registry).log, .ok id⟩, grown)) := by
  have hcoherent := h.coherent
  obtain ⟨above, parent, e, hlocate, hparent, hexpand, rfl, hlinks, rfl⟩ := graft_eq_ok_iff.1 hgraft
  obtain rfl := hcoherent.id_of_term? hparent
  have hgrown := hcoherent.attach hparent hlinks
  have hname : e.name = d.name := Declaration.name_of_expandWithin hexpand
  have hnew := holds_attach t parent e
  have hsize := lt_size_of_term? hparent
  refine ⟨parent, e, Roster.put ⟨d.name, t.size⟩ parent.children,
    retrieveIn?_eq_some_iff_locate.2 ⟨parent.id, hlocate, hparent⟩,
    Declaration.expands_of_expandWithin hexpand, rfl, size_attach t parent e, hnew.shows,
    hnew.subtree_eq hgrown, fun new node hnode => (hgrown.placed new node hnode).id_eq, rfl, ?_,
    node?_of_term? hparent, ?_, ?_, ?_, ?_⟩
  · intro old hold hne
    simp [node?_attach_of_lt hold, hne]
  · rw [node?_attach_of_lt hsize, node?_of_term? hparent, Option.map_some, if_pos rfl, hname]
    rfl
  · exact Roster.put_cases (⟨d.name, t.size⟩ : Link) parent.children
  · obtain ⟨node, hnode, -, -⟩ := hnew.head
    obtain ⟨target, term, hfollow, hterm⟩ := hgrown.exists_follow hnode
    have hjoin := hcoherent.locate_join_attach hparent hlocate hfollow
    rw [hname] at hjoin
    refine ⟨term, resolveProxy_eq_ok_iff.2 ⟨target, hfollow, hterm⟩,
      retrieveIn?_eq_some_iff_locate.2 ⟨target, hjoin, hterm⟩, fun term' hterm' => ?_⟩
    have hself := followWithin_term (term?_of_node? hterm') []
    obtain rfl := Except.ok.inj (hfollow.symm.trans hself)
    exact Option.some.inj (hterm.symm.trans (term?_of_node? hterm'))
  · intro hd hregistry
    rw [hcoherent.graftInPlace_eq hd hregistry, Terminology.after, hgraft]
    refine congrArg Part.some (Prod.ext (Logged.ext rfl ?_) rfl)
    rw [Logged.result_map, hgraft]
    rfl

/-- The role that persons have is replaced: its entry, the second one of three, leads to the new role. -/
theorem Sample.graft_frame_of_role : built.Reached ∧
    (built.graft (pointer ["person"]) role (some registry)).result = .ok (grafted, 11) ∧
    ∃ person children, built.retrieve? (pointer ["person"]) = some person ∧
      grafted.node? person.id = some (.term { person with children := children }) ∧
      person.children = [⟨⟨"part"⟩, 6⟩, ⟨⟨"role"⟩, 7⟩, ⟨⟨"roleText"⟩, 9⟩] ∧
      children = [⟨⟨"part"⟩, 6⟩, ⟨⟨"role"⟩, 11⟩, ⟨⟨"roleText"⟩, 9⟩] := by
  have hid : (built.graft (pointer ["person"]) role (some registry)).result.toOption.map Prod.snd =
      some 11 := by decide +kernel
  have hbefore : (built.retrieve? (pointer ["person"])).map (fun c => (c.id, c.children)) =
      some (5, [⟨⟨"part"⟩, 6⟩, ⟨⟨"role"⟩, 7⟩, ⟨⟨"roleText"⟩, 9⟩]) := by decide +kernel
  have hafter : (grafted.term? 5).map Term.children =
      some [⟨⟨"part"⟩, 6⟩, ⟨⟨"role"⟩, 11⟩, ⟨⟨"roleText"⟩, 9⟩] := by decide +kernel
  have hgraft : (built.graft (pointer ["person"]) role (some registry)).result = .ok (grafted, 11) := by
    cases hresult : (built.graft (pointer ["person"]) role (some registry)).result with
    | error error =>
      rw [hresult] at hid
      cases hid
    | ok pair =>
      obtain ⟨grown, id⟩ := pair
      rw [hresult] at hid
      obtain rfl : id = 11 := Option.some.inj hid
      rw [grafted, Terminology.after, hresult]
  obtain ⟨person, -, children, hperson, -, -, -, -, -, -, -, -, -, hnode, -, -, -⟩ :=
    Reached.graft_frame reached_built hgraft
  rw [hperson] at hbefore
  obtain ⟨hperson₅, hold⟩ := Prod.mk.inj (Option.some.inj hbefore)
  refine ⟨reached_built, hgraft, person, children, hperson, hnode, hold, ?_⟩
  rw [hperson₅] at hnode
  rw [term?_of_node? hnode] at hafter
  exact Option.some.inj hafter

end Terminology

end TermAtlas
