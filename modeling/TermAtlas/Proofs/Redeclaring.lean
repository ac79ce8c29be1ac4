import TermAtlas.Proofs.Frame
import TermAtlas.Proofs.Plain
import TermAtlas.Proofs.Renumbering

/-!
# Grafting and declaring

Something can be added to a terminology in two ways: by a graft, or by adding it to the registry and
building that again. Without references the two come to the same. The same forest can be read off in
the end, so that all nodes that the roots lead to are the same but for numbers; and the graft succeeds
exactly if the build does.

The graft also checks nodes that are detached, and the only ones are those that it replaces. Should the
node that it takes the place of be a proxy, it stands for the same term as before: where its pointer led
it did not come across the name of the proxy below the same term again, for then it would have led in a
circle.

## What is proved

* `Direct.shows_attach` — what can be read off after a graft is what is declared.
* `Coherent.resolves_attach` — a graft to a terminology without detached nodes fails only because of a proxy
  that the roots lead to.
* `Registry.graft_iff_declare` — grafting and declaring come to the same.
-/

namespace TermAtlas

namespace Terminology

/-- `t.Direct scope names last`: the names lead from `scope` down to `last`, each of them to a child that
is a term. -/
inductive Direct (t : Terminology) : Option Nat → List Name → Option Nat → Prop where
  /-- No names lead nowhere. -/
  | nil {scope : Option Nat} : Direct t scope [] scope
  /-- The first name is that of a child, and the others lead on from there. -/
  | cons {scope last : Option Nat} {name : Name} {names : List Name} {next : Nat} {term : Term} :
      t.child? scope name = some next → t.term? next = some term → Direct t (some next) names last →
      Direct t scope (name :: names) last

variable {t t' : Terminology} {scope above last : Option Nat} {id target old : Nat} {names : List Name}
  {stops inProgress : List Nat} {links : List Link} {link : Link} {parent : Term} {proxy : Proxy}
  {e : Expansion} {es : List Expansion} {c : Declaration} {ds : List Declaration}

/-! ### What is shown after a graft -/

theorem Direct.reaches (h : t.Direct scope names last) : t.Reaches scope names last := by
  induction h with
  | nil => exact reaches_nil_iff.2 rfl
  | cons hchild hterm _ ih =>
    exact reaches_cons_iff.2 ⟨_, _, hchild, followWithin_term hterm [], ih⟩

/-- Where names lead is below where they start. -/
theorem Direct.mem_subtree (h : t.Direct scope names last) (harranged : t.Arranged)
    (hscope : scope = some id) (hlast : last = some target) : target ∈ t.subtree id := by
  induction h generalizing id with
  | nil =>
    obtain rfl := Option.some.inj (hscope.symm.trans hlast)
    rw [harranged.subtree_eq]
    exact List.mem_cons_self
  | cons hchild _ _ ih =>
    subst hscope
    obtain ⟨link, hlink, -, rfl⟩ := exists_link_of_child? hchild
    rw [harranged.subtree_eq]
    exact List.mem_cons_of_mem _ (List.mem_flatMap.2 ⟨link, hlink, ih rfl hlast⟩)

/-- The same trees can be read off as soon as that is so for each of the nodes. -/
theorem ShowsAll.imp (h : t.ShowsAll scope links es)
    (hlinks : ∀ other ∈ links, ∀ e, t.Shows scope other.node e → t'.Shows scope other.node e) :
    t'.ShowsAll scope links es := by
  induction links generalizing es with
  | nil =>
    cases h
    exact .nil
  | cons link rest ih =>
    cases h with
    | cons hname he hrest =>
      exact .cons hname (hlinks link List.mem_cons_self _ he)
        (ih hrest fun other hother => hlinks other (List.mem_cons_of_mem _ hother))

/-- Adding a node adds its tree, if those that stay still show theirs. -/
theorem ShowsAll.put (h : t.ShowsAll scope links es) (hnodup : links.Nodup) (hname : link.name = e.name)
    (hnew : t'.Shows scope link.node e)
    (hothers : ∀ other ∈ links, Roster.find? link.name links ≠ some other →
      ∀ e, t.Shows scope other.node e → t'.Shows scope other.node e) :
    t'.ShowsAll scope (Roster.put link links) (Roster.put e es) := by
  induction links generalizing es with
  | nil =>
    cases h
    exact .cons hname hnew .nil
  | cons first rest ih =>
    obtain ⟨hfirst, hrestNodup⟩ := List.nodup_cons.1 hnodup
    cases h with
    | @cons _ _ _ e₁ es₁ hname₁ he hrest =>
      have hfind : Roster.find? link.name (first :: rest) =
          if first.name = link.name then some first else Roster.find? link.name rest := rfl
      have hput : Roster.put link (first :: rest) =
          if first.name = link.name then link :: rest else first :: Roster.put link rest := rfl
      have hputTrees : Roster.put e (e₁ :: es₁) =
          if e₁.name = e.name then e :: es₁ else e₁ :: Roster.put e es₁ := rfl
      rw [hput, hputTrees, ← hname₁, ← hname]
      by_cases heq : first.name = link.name
      · rw [if_pos heq, if_pos heq]
        refine .cons hname hnew (hrest.imp fun other hother => ?_)
        refine hothers other (List.mem_cons_of_mem _ hother) ?_
        rw [hfind, if_pos heq]
        intro hsame
        exact hfirst (Option.some.inj hsame ▸ hother)
      · rw [if_neg heq, if_neg heq]
        refine .cons hname₁ (hothers first List.mem_cons_self ?_ _ he) (ih hrest hrestNodup ?_)
        · rw [hfind, if_neg heq]
          intro hsame
          exact heq (Roster.name_of_find? hsame)
        · intro other hother hne
          refine hothers other (List.mem_cons_of_mem _ hother) ?_
          rwa [hfind, if_neg heq]

mutual

/-- A node shows the same tree after a graft elsewhere. -/
theorem Shows.attach {e : Expansion} {above : Option Nat} {id : Nat} {other : Expansion}
    (h : t.Arranged) (hshows : t.Shows above id other) (hnot : parent.id ∉ t.subtree id) :
    (t.attach parent e).Shows above id other := by
  cases other with
  | proxy name pointer settings =>
    cases hshows with
    | proxy hnode hproxy => exact .proxy (node?_attach_of_proxy parent e hnode) hproxy
  | term name traits children =>
    cases hshows with
    | @term _ _ term _ hnode hterm hchildren =>
      rw [h.subtree_eq, List.mem_cons, not_or, scope_of_term? (term?_of_node? hnode)] at hnot
      have hnode' : (t.attach parent e).node? id = some (.term term) := by
        rw [node?_attach_of_lt (lt_size_of_node? hnode), hnode, Option.map_some,
          if_neg (Ne.symm hnot.1)]
      refine .term hnode' hterm (hchildren.attach h fun link hlink hmem => ?_)
      exact hnot.2 (List.mem_flatMap.2 ⟨link, hlink, hmem⟩)

/-- Nodes show the same trees after a graft elsewhere. -/
theorem ShowsAll.attach {e : Expansion} {above : Option Nat} {links : List Link} {others : List Expansion}
    (h : t.Arranged) (hshows : t.ShowsAll above links others)
    (hnot : ∀ link ∈ links, parent.id ∉ t.subtree link.node) :
    (t.attach parent e).ShowsAll above links others := by
  cases others with
  | nil =>
    cases hshows
    exact .nil
  | cons first rest =>
    cases hshows with
    | cons hname hfirst hrest =>
      exact .cons hname (hfirst.attach h (hnot _ List.mem_cons_self))
        (hrest.attach h fun link hlink => hnot link (List.mem_cons_of_mem _ hlink))

end

/-- Among the children of a term there is nothing that has the term below itself. -/
theorem Arranged.not_mem_subtree_of_child (h : t.Arranged) (hlink : link ∈ t.scope (some id)) :
    id ∉ t.subtree link.node := by
  intro hmem
  have hlt := h.lt_of_mem_scope hlink
  have hle := h.le_of_mem_subtree hmem
  omega

/-- A tree that is found among some trees is shown by the node of its name. -/
theorem ShowsAll.exists_of_find? (h : t.ShowsAll scope links es) {name : Name}
    (hfind : Roster.find? name links = some link) :
    ∃ e, Roster.find? name es = some e ∧ t.Shows scope link.node e := by
  induction links generalizing es with
  | nil => cases hfind
  | cons first rest ih =>
    cases h with
    | @cons _ _ _ e _ hname he hrest =>
      rw [Roster.find?_cons] at hfind ⊢
      have hsame : Named.name e = Named.name first := hname.symm
      rw [hsame]
      split at hfind
      · next heq =>
        cases hfind
        exact ⟨e, if_pos heq, he⟩
      · next hne =>
        rw [if_neg hne]
        exact ih hrest hfind

theorem Shows.exists_proxy {name : Name} {pointer : Pointer} {settings : Settings}
    (h : t.Shows above id (.proxy name pointer settings)) :
    ∃ proxy, t.node? id = some (.proxy proxy) := by
  cases h with
  | proxy hnode _ => exact ⟨_, hnode⟩

theorem Shows.exists_term {name : Name} {traits : Traits} {children : List Expansion}
    (h : t.Shows above id (.term name traits children)) :
    ∃ term, t.node? id = some (.term term) ∧ term.name = name ∧ term.traits = traits ∧
      term.parent = above ∧ t.ShowsAll (some id) term.children children := by
  cases h with
  | term hnode hterm hchildren => exact ⟨_, hnode, rfl, rfl, hterm, hchildren⟩

/-- A term shows a tree after a graft if its children then show the trees below. -/
theorem Shows.attach_term {name : Name} {traits : Traits} {children others : List Expansion}
    (h : t.Shows above id (.term name traits children))
    (hchildren : (t.attach parent e).ShowsAll (some id) ((t.attach parent e).scope (some id)) others) :
    (t.attach parent e).Shows above id (.term name traits others) := by
  obtain ⟨term, hnode, rfl, rfl, rfl, -⟩ := h.exists_term
  have hterm := term?_of_node? hnode
  have hterm' : (t.attach parent e).term? id =
      some (if id = parent.id then term.adopt ⟨e.name, t.size⟩ else term) := by
    rw [term?_attach_of_lt (lt_size_of_term? hterm), hterm, Option.map_some]
  rw [scope_of_term? hterm'] at hchildren
  split at hterm'
  · next heq =>
    rw [if_pos heq] at hchildren
    exact @Shows.term _ _ id (term.adopt ⟨e.name, t.size⟩) _ (node?_of_term? hterm') rfl hchildren
  · next hne =>
    rw [if_neg hne] at hchildren
    exact .term (node?_of_term? hterm') rfl hchildren

/-- The scope of a node changes only if the tree is attached right there, and not further below. -/
theorem Arranged.scope_attach_of_mem_subtree (h : t.Arranged) (hparent : t.term? parent.id = some parent)
    (hlink : link ∈ t.scope scope) (hin : parent.id ∈ t.subtree link.node) :
    (t.attach parent e).scope scope = t.scope scope := by
  cases scope with
  | none => rfl
  | some id =>
    have hlt := h.lt_of_mem_scope hlink
    have hle := h.le_of_mem_subtree hin
    have hsize := lt_size_of_term? hparent
    exact scope_attach_of_ne (by omega) (by omega)

/-- What is below the node that a name is found for is not below another one in the same scope. -/
theorem Arranged.not_mem_subtree_of_find? (h : t.Arranged) {other : Link}
    (hlink : Roster.find? link.name (t.scope scope) = some link) (hother : other ∈ t.scope scope)
    (hne : Roster.find? link.name (t.scope scope) ≠ some other) (hin : id ∈ t.subtree link.node) :
    id ∉ t.subtree other.node := by
  have hmem := Roster.mem_of_find? hlink
  have hnode_ne : other.node ≠ link.node := by
    intro heq
    obtain rfl := List.inj_on_of_nodup_map (h.nodup_scope scope) hother hmem heq
    exact hne hlink
  exact fun hmem' => h.disjoint_subtree hother hmem hnode_ne hmem' hin

open Declaration in
/-- What can be read off after a graft is what is declared when the declaration is adopted along the names
of the pointer. -/
theorem Direct.shows_attach (hdirect : t.Direct scope names last) (h : t.Arranged)
    (hparent : t.term? parent.id = some parent) (hlast : last = some parent.id)
    (hshows : t.ShowsAll scope (t.scope scope) (ds.map outline)) (c : Declaration) :
    Runs names ds ∧ (t.attach parent c.outline).ShowsAll scope
      ((t.attach parent c.outline).scope scope) ((adoptAt c names ds).map outline) := by
  have hnodup : ∀ scope, (t.scope scope).Nodup := fun scope => (h.nodup_scope scope).of_map
  induction hdirect generalizing ds with
  | nil =>
    subst hlast
    refine ⟨.nil, ?_⟩
    have hnew := (holds_attach t parent c.outline).shows
    rw [scope_attach_self hparent, adoptAt, Roster.map_put named_outline, ← scope_of_term? hparent]
    refine hshows.put (hnodup _) rfl hnew fun other hother _ e he => ?_
    exact he.attach h (h.not_mem_subtree_of_child hother)
  | @cons scope last name names next term hchild hterm hrest ih =>
    obtain ⟨link, hlink, rfl⟩ := Option.map_eq_some_iff.1 hchild
    have hmem := Roster.mem_of_find? hlink
    obtain ⟨tree, htree, hshown⟩ := hshows.exists_of_find? hlink
    rw [Roster.find?_map named_outline] at htree
    obtain ⟨d, hd, rfl⟩ := Option.map_eq_some_iff.1 htree
    cases hpointer : d.settings.pointer? .proxy with
    | some pointer =>
      rw [outline_of_proxy hpointer] at hshown
      obtain ⟨proxy, hnode⟩ := hshown.exists_proxy
      cases (node?_of_term? hterm).symm.trans hnode
    | none =>
      rw [outline_of_term hpointer] at hshown
      obtain ⟨found, hnode, -, -, -, hchildren⟩ := hshown.exists_term
      rw [← scope_of_term? (term?_of_node? hnode)] at hchildren
      obtain ⟨hruns, hbelow⟩ := ih hlast hchildren
      refine ⟨.cons hd hpointer hruns, ?_⟩
      have hin : parent.id ∈ t.subtree link.node := hrest.mem_subtree h rfl hlast
      have hscope := h.scope_attach_of_mem_subtree (e := c.outline) hparent hmem hin
      have hname : link.name = name := Roster.name_of_find? hlink
      have hname' : d.name = name := Roster.name_of_find? hd
      rw [← hname] at hlink
      have hput : Roster.put link (t.scope scope) = t.scope scope := Roster.put_of_find? hlink
      rw [hscope, adoptAt, hd, Roster.map_put named_outline, outline_adopt_children hpointer, ← hput]
      refine hshows.put (hnodup scope) (hname.trans hname'.symm) (hshown.attach_term hbelow) ?_
      intro other hother hne e he
      exact he.attach h (h.not_mem_subtree_of_find? hlink hother hne hin)

/-! ### What becomes detached -/

/-- The roots lead to all that is laid out. -/
theorem linked_ofForest (forest : List Expansion) (hid : id < (ofForest forest).size) :
    (ofForest forest).Linked id := by
  induction id using Nat.strongRecOn with
  | _ id ih =>
    have hsize := hid
    rw [size_ofForest] at hsize
    rcases (holdsAll_ofForest forest).entered (Nat.zero_le id) (by omega) with
      ⟨link, hlink, rfl⟩ | ⟨upper, -, link, hlink, rfl⟩
    · exact .root hlink
    · have hless := (arranged_ofForest forest).lt_of_mem_scope hlink
      exact .child (ih upper hless (by omega)) hlink

/-- While the proxy that is replaced is in progress, names do not come across it, and lead where they led. -/
theorem Leads.attach_of_replaced (hleads : t.Leads inProgress scope names stops)
    (hparent : t.term? parent.id = some parent) (hold : t.child? (some parent.id) e.name = some old)
    (hproxy : t.node? old = some (.proxy proxy)) (hprogress : old ∈ inProgress)
    (hstep : ∀ next stop, t.followWithin inProgress next = .ok stop →
      (t.attach parent e).followWithin inProgress next = .ok stop) :
    (t.attach parent e).Leads inProgress scope names stops := by
  induction hleads with
  | nil => exact .nil
  | @cons scope name names next stop stops hchild hfollow _ ih =>
    refine .cons (child?_attach hparent ?_ hchild) (hstep next stop hfollow) ih
    rintro rfl rfl
    obtain rfl := Option.some.inj (hold.symm.trans hchild)
    exact ((followWithin_proxy_eq_ok_iff hproxy).1 hfollow).1 hprogress

theorem followWithin_attach_of_replaced (hfollow : t.followWithin inProgress id = .ok target)
    (hparent : t.term? parent.id = some parent) (hold : t.child? (some parent.id) e.name = some old)
    (hproxy : t.node? old = some (.proxy proxy)) (hprogress : old ∈ inProgress) :
    (t.attach parent e).followWithin inProgress id = .ok target := by
  refine followWithin_induction (motive := fun inProgress id target => old ∈ inProgress →
    (t.attach parent e).followWithin inProgress id = .ok target) ?_ ?_ hfollow hprogress
  · intro inProgress id term hterm _
    obtain ⟨term', hterm', -⟩ := exists_term?_attach parent e hterm
    exact followWithin_term hterm' inProgress
  · intro inProgress id met stops target hnode hid hleads hlast ih hprogress
    have hprogress' : old ∈ inProgress ++ [id] := List.mem_append_left _ hprogress
    refine (followWithin_proxy_eq_ok_iff (node?_attach_of_proxy parent e hnode)).2 ⟨hid, stops, ?_, hlast⟩
    exact hleads.attach_of_replaced hparent hold hproxy hprogress' fun next stop hstop =>
      ih next stop hstop hprogress'

/-- A proxy that is replaced stands for the same term as before. -/
theorem Coherent.follow_attach_of_replaced (h : t.Coherent) (hparent : t.term? parent.id = some parent)
    (hold : t.child? (some parent.id) e.name = some old) (hproxy : t.node? old = some (.proxy proxy)) :
    (t.attach parent e).follow old = t.follow old := by
  obtain ⟨target, -, hfollow, -⟩ := h.exists_follow hproxy
  rw [hfollow]
  obtain ⟨hid, stops, hleads, hlast⟩ := (followWithin_proxy_eq_ok_iff hproxy).1 hfollow
  have hprogress : old ∈ [] ++ [old] := List.mem_singleton_self old
  refine (followWithin_proxy_eq_ok_iff (node?_attach_of_proxy parent e hproxy)).2 ⟨hid, stops, ?_, hlast⟩
  exact hleads.attach_of_replaced hparent hold hproxy hprogress fun next stop hstop =>
    followWithin_attach_of_replaced hstop hparent hold hproxy hprogress

/-- Of what the roots led to, they no longer lead to the node that was replaced, or to its parent. -/
theorem Linked.replaced_of_attach (hid : t.Linked id) (h : t.Arranged)
    (hparent : t.term? parent.id = some parent) (hnot : ¬ (t.attach parent e).Linked id) {node : Node}
    {upper : Nat} (hnode : t.node? id = some node) (hupper : node.parent = some upper)
    (hlinked : (t.attach parent e).Linked upper) : t.child? (some parent.id) e.name = some id := by
  cases hid with
  | @root link hlink =>
    have hroot : (t.attach parent e).Linked link.node := .root hlink
    exact absurd hroot hnot
  | @child above link _ hlink =>
    obtain rfl := Option.some.inj (hupper.symm.trans (h.parent_of_mem_scope hlink hnode))
    obtain ⟨term, hterm, -⟩ := exists_term_of_mem_scope hlink
    by_cases heq : upper = parent.id
    · subst heq
      have hgone : link ∉ Roster.put ⟨e.name, t.size⟩ (t.scope (some parent.id)) := by
        intro hmem
        rw [scope_of_term? hparent, ← scope_attach_self hparent] at hmem
        exact hnot (.child hlinked hmem)
      have hfound : Roster.find? e.name (t.scope (some parent.id)) = some link :=
        Roster.find?_of_not_mem_put hlink hgone
      rw [child?, hfound]
      rfl
    · refine absurd (Linked.child hlinked ?_) hnot
      rwa [scope_attach_of_ne (lt_size_of_term? hterm) heq]

/-- If nothing was detached before, all proxies stand for terms after a graft as soon as those do that the
roots lead to. -/
theorem Coherent.resolves_attach (h : t.Coherent) (hrooted : t.Rooted)
    (hall : ∀ id < t.size, t.Linked id) (hparent : t.term? parent.id = some parent)
    (hlinks : ∀ id proxy, (t.attach parent e).Linked id →
      (t.attach parent e).node? id = some (.proxy proxy) →
      ∃ term, (t.attach parent e).resolveProxy id = .ok term) :
    (t.attach parent e).checkLinks.result = .ok () := by
  have harranged := h.toArranged.attach e hparent
  have hlinkedParent := hall parent.id (lt_size_of_term? hparent)
  refine harranged.checkLinks_iff.2 fun id proxy hnode => ?_
  have hid : proxy.id = id := (harranged.placed id _ hnode).id_eq
  subst hid
  by_cases hlinked : (t.attach parent e).Linked proxy.id
  · exact hlinks proxy.id proxy hlinked hnode
  · cases hupper : proxy.parent with
    | none =>
      obtain ⟨link, hlink, hid⟩ :=
        (hrooted.attach h.toArranged e hparent) proxy.id (.proxy proxy) hnode hupper
      exact absurd (hid ▸ Linked.root hlink) hlinked
    | some upper =>
      by_cases hlinkedUpper : (t.attach parent e).Linked upper
      · have hlt : proxy.id < t.size := by
          by_contra hge
          have hsize := lt_size_of_node? hnode
          rw [size_attach] at hsize
          exact hlinked (hlinkedParent.attach_of_size_le h.toArranged hparent (by omega) hsize)
        have hnode' : t.node? proxy.id = some (.proxy proxy) := node?_of_attach_proxy hlt hnode
        have hold := (hall proxy.id hlt).replaced_of_attach h.toArranged hparent hlinked hnode' hupper
          hlinkedUpper
        obtain ⟨target, -, hfollow, -⟩ := h.exists_follow hnode'
        rw [exists_resolveProxy_iff, h.follow_attach_of_replaced hparent hold hnode']
        exact ⟨target, hfollow⟩
      · exact h.resolves_of_unlinked_parent hparent hlinkedParent hnode hupper hlinkedUpper

/-- The check after a graft passes if the forest that is then shown has proxies that all stand for terms. -/
theorem Coherent.checkLinks_attach_iff (h : t.Coherent) (hrooted : t.Rooted)
    (hall : ∀ id < t.size, t.Linked id) (hparent : t.term? parent.id = some parent)
    (hshows : (t.attach parent e).ShowsAll none (t.attach parent e).roots es) :
    (t.attach parent e).checkLinks.result = .ok () ↔ (ofForest es).checkLinks.result = .ok () := by
  have harranged := h.toArranged.attach e hparent
  rw [harranged.checkLinks_ofForest_iff hshows]
  constructor
  · intro hlinks id proxy _ hnode
    exact harranged.checkLinks_iff.1 hlinks id proxy hnode
  · exact h.resolves_attach hrooted hall hparent

/-- When a graft of a plain declaration succeeds, and with what. -/
theorem graft_plain_eq_ok_iff {p : Pointer} {registry : Option Registry} {pair : Terminology × Nat}
    (hc : c.Plain) (hlocate : t.locate none p = .ok parent.id)
    (hparent : t.term? parent.id = some parent) :
    (t.graft p c registry).result = .ok pair ↔ Declaration.Unrepeated [] c ∧
      pair = (t.attach parent c.outline, t.size) ∧
      (t.attach parent c.outline).checkLinks.result = .ok () := by
  obtain ⟨grown, id⟩ := pair
  rw [graft_eq_ok_iff]
  constructor
  · rintro ⟨above, other, e, habove, hother, hexpand, rfl, hlinks, rfl⟩
    obtain rfl := Except.ok.inj (habove.symm.trans hlocate)
    obtain rfl := Option.some.inj (hother.symm.trans hparent)
    obtain ⟨hunrepeated, rfl⟩ := hc.expand_eq_ok_iff.1 hexpand
    exact ⟨hunrepeated, rfl, hlinks⟩
  · rintro ⟨hunrepeated, hpair, hlinks⟩
    cases hpair
    exact ⟨parent.id, parent, c.outline, hlocate, hparent, hc.expand_eq_ok_iff.2 ⟨hunrepeated, rfl⟩, rfl,
      hlinks, rfl⟩

end Terminology

open Terminology Declaration in
/-- In a registry without references, let the names of a pointer lead from child to child, to terms only.
A declaration that brings its own identities can be grafted at the pointer to what is built exactly if the
registry that has adopted it there can be built. Then both terminologies are the same but for numbers,
along their walks. -/
theorem Registry.graft_iff_declare {r : Registry} {t : Terminology} (hbuild : r.build.result = .ok t)
    (hr : r.Plain) {c : Declaration} (hc : c.Plain) (hown : ∀ id ∈ c.identities, id ∉ r.identities)
    {p : Pointer} (hp : p.segments ≠ []) {last : Option Nat} (hdirect : t.Direct none p.segments last)
    (registry : Option Registry) :
    ∃ r', r.edit p [.adopt c] = .ok r' ∧
      ((∃ pair, (t.graft p c registry).result = .ok pair) ↔ ∃ t', r'.build.result = .ok t') ∧
      ∀ grown id t', (t.graft p c registry).result = .ok (grown, id) → r'.build.result = .ok t' →
        ∃ ρ : Nat → Nat, t'.walk = grown.walk.map ρ ∧
          (∀ a ∈ grown.walk, ∀ b ∈ grown.walk, ρ a = ρ b → a = b) ∧
          t'.roots = grown.roots.map (Link.renumber ρ) ∧
          ∀ a ∈ grown.walk, t'.node? (ρ a) = (grown.node? a).map (Node.renumber ρ) := by
  have hcoherent := (Reached.built hbuild).coherent
  have hrooted := (Reached.built hbuild).rooted
  obtain ⟨hunrepeated, ht, -⟩ := hr.build_eq_ok_iff.1 hbuild
  have hshows : t.ShowsAll none t.roots (r.roots.map outline) := by
    subst ht
    exact (holdsAll_ofForest _).shows
  have hall : ∀ id < t.size, t.Linked id := by
    subst ht
    exact fun id => linked_ofForest _
  obtain ⟨target, parent, rfl, hparent⟩ := hdirect.reaches.exists_term hp
  obtain rfl := hcoherent.id_of_term? hparent
  have hlocate : t.locate none p = .ok parent.id := locate_eq_ok_iff_reaches.2 ⟨hp, hdirect.reaches⟩
  obtain ⟨hruns, hgrown⟩ := hdirect.shows_attach hcoherent.toArranged hparent rfl hshows c
  obtain ⟨r', hedit, hroots⟩ := hruns.exists_edit hp c
  rw [← hroots] at hgrown
  have hr' : r'.Plain := by
    rw [Registry.Plain, hroots]
    exact hc.mem_adoptAt hr
  have hunrepeated' : (∀ d ∈ r'.roots, Unrepeated [] d) ↔ Unrepeated [] c := by
    rw [hroots]
    exact hruns.forall_adoptAt_unrepeated_iff hunrepeated (fun _ _ => List.not_mem_nil) hown
  have hlinks := hcoherent.checkLinks_attach_iff hrooted hall hparent hgrown
  have hgraft : ∀ pair, (t.graft p c registry).result = .ok pair ↔ Unrepeated [] c ∧
      pair = (t.attach parent c.outline, t.size) ∧
      (t.attach parent c.outline).checkLinks.result = .ok () :=
    fun pair => graft_plain_eq_ok_iff hc hlocate hparent
  refine ⟨r', hedit, ?_, ?_⟩
  · simp only [hgraft, hr'.build_eq_ok_iff, hunrepeated', hlinks]
    constructor
    · rintro ⟨_, hc, -, hcheck⟩
      exact ⟨_, hc, rfl, hcheck⟩
    · rintro ⟨_, hc, rfl, hcheck⟩
      exact ⟨_, hc, rfl, hcheck⟩
  · intro grown id t' hgrafted hbuilt
    obtain ⟨-, hpair, -⟩ := (hgraft _).1 hgrafted
    obtain ⟨-, rfl, hcheck'⟩ := hr'.build_eq_ok_iff.1 hbuilt
    cases hpair
    exact (hcoherent.toArranged.attach c.outline hparent).exists_renumbering hgrown hcheck'

namespace Terminology.Sample

/-- Names whose roles have texts, and a proxy that leads to the text of a role. -/
def plainRegistry : Registry where
  roots := [
    declaration 0 "name" [] [
      declaration 1 "role" [] [declaration 2 "text" [] []],
      declaration 3 "roleText" [(.proxy, .pointer (pointer ["role", "text"]))] []],
    declaration 4 "note" [] []]
  distinct := by decide

theorem plain_plainRegistry : plainRegistry.Plain := by
  have hproxy : (OrderedMap.ofList [(Setting.Key.proxy,
      Setting.Value.pointer (pointer ["role", "text"]))]).get? .reference = none := by decide +kernel
  have hnone : (OrderedMap.ofList ([] : List (Setting.Key × Setting.Value))).get? .reference = none := rfl
  simp [Registry.Plain, plainRegistry, declaration, hproxy, hnone]

theorem plain_role : role.Plain := by
  have hnone : (OrderedMap.ofList ([] : List (Setting.Key × Setting.Value))).get? .reference = none := rfl
  simp [role, declaration, hnone]

/-- The terminology of this registry. -/
def plainBuilt : Terminology := plainRegistry.build.result.toOption.get (by decide +kernel)

/-- The terminology with a role that has a code. -/
def plainGrafted : Terminology × Nat :=
  (plainBuilt.graft (pointer ["name"]) role none).result.toOption.get (by decide +kernel)

/-- The role below the names is replaced. Where it is declared instead, the terminology can be built too,
and has the same nodes along its walk, under other numbers. -/
theorem graft_of_plainRegistry : ∃ r' t', ∃ ρ : Nat → Nat,
    (plainBuilt.graft (pointer ["name"]) role none).result = .ok (plainGrafted.1, 5) ∧
    plainRegistry.edit (pointer ["name"]) [.adopt role] = .ok r' ∧ r'.build.result = .ok t' ∧
    plainGrafted.1.walk = [0, 5, 6, 7, 3, 4] ∧ t'.walk = [0, 5, 6, 7, 3, 4].map ρ ∧
    ∀ a ∈ [0, 5, 6, 7, 3, 4], t'.node? (ρ a) = (plainGrafted.1.node? a).map (Node.renumber ρ) := by
  have hbuild : plainRegistry.build.result = .ok plainBuilt := eq_ok_get _
  have hgraft : (plainBuilt.graft (pointer ["name"]) role none).result = .ok plainGrafted := eq_ok_get _
  have hid : plainGrafted.2 = 5 := by decide +kernel
  have hwalk : plainGrafted.1.walk = [0, 5, 6, 7, 3, 4] := by decide +kernel
  have hown : ∀ id ∈ role.identities, id ∉ plainRegistry.identities := by decide +kernel
  have hchild : plainBuilt.child? none ⟨"name"⟩ = some 0 := by decide +kernel
  have hterm : ∃ term, plainBuilt.term? 0 = some term :=
    Option.isSome_iff_exists.1 (by decide +kernel)
  obtain ⟨term, hterm⟩ := hterm
  have hdirect : plainBuilt.Direct none (pointer ["name"]).segments (some 0) := .cons hchild hterm .nil
  obtain ⟨r', hedit, hiff, hsame⟩ := Registry.graft_iff_declare hbuild plain_plainRegistry plain_role hown
    (List.cons_ne_nil _ _) hdirect none
  obtain ⟨t', ht'⟩ := hiff.1 ⟨plainGrafted, hgraft⟩
  obtain ⟨ρ, hwalks, -, -, hnodes⟩ := hsame plainGrafted.1 plainGrafted.2 t' hgraft ht'
  rw [hwalk] at hwalks hnodes
  refine ⟨r', t', ρ, ?_, hedit, ht', hwalk, hwalks, hnodes⟩
  rw [← hid]
  exact hgraft

end Terminology.Sample

end TermAtlas
