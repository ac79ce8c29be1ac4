import TermAtlas.Proofs.Transparency

/-!
# Detached nodes

A node that a graft took the place of keeps its number and its parent, but no link leads to it any more.
A graft checks all proxies, those that are detached included. Most of them cannot fail: below a detached
term nothing ever changes, so that a proxy there leads where it always did. Only a proxy that was itself
replaced is different. Its pointer still starts from the children of its parent, and as long as the
roots lead to the parent, later grafts change what is found there.

## What is proved

* `Holds.entered` — each node of a tree that is laid out is entered among the children of another one.
* `Untouched.leads` — names lead to the same stops in two terminologies that agree on all that lies
  below.
* `Arranged.linked_of_locate`, `Arranged.linked_of_follow` — a look-up from the roots ends where the roots
  lead to, and what they lead to stands for something that they lead to.
* `Coherent.resolves_of_unlinked_parent` — a graft cannot break a proxy whose parent is detached.
* `Reached.graft_eq_ok_iff_linked` — which proxies decide whether a graft succeeds.
* `Sample.graft_fails_of_replaced` — a proxy that was replaced can make a graft fail.
-/

namespace TermAtlas.Terminology

/-- The scopes that the roots lead to. -/
def InReach (t : Terminology) : Option Nat → Prop
  | none => True
  | some id => t.Linked id

/-- Two terminologies agree on the scopes in `S`, and on all that lies below them. -/
structure Untouched (t t' : Terminology) (S : Option Nat → Prop) : Prop where
  /-- The scope holds the same. -/
  scope_eq : ∀ scope, S scope → t'.scope scope = t.scope scope
  /-- What the scope leads to is the same. -/
  node_eq : ∀ scope, S scope → ∀ link ∈ t.scope scope, t'.node? link.node = t.node? link.node
  /-- What is below the scope is one of these scopes as well. -/
  below : ∀ scope, S scope → ∀ link ∈ t.scope scope, S (some link.node)

/-- Whatever has no parent is a root. -/
def Rooted (t : Terminology) : Prop :=
  ∀ id node, t.node? id = some node → node.parent = none → ∃ link ∈ t.roots, link.node = id

variable {t t' : Terminology} {S : Option Nat → Prop} {scope : Option Nat} {id target : Nat}
  {inProgress : List Nat} {names : List Name} {parent : Term} {e : Expansion}

/-! ### Nodes are entered -/

mutual

/-- Each node of a tree but the outermost one is entered below a node of the tree. -/
theorem Holds.entered {e : Expansion} {start : Nat} {above : Option (Nat × XPaths)}
    (h : t.Holds start above e) (hle : start ≤ id) (hlt : id < start + e.size) :
    id = start ∨ ∃ upper, start ≤ upper ∧ ∃ link ∈ t.scope (some upper), link.node = id := by
  cases e with
  | proxy name pointer settings =>
    rw [Expansion.size] at hlt
    exact .inl (by omega)
  | term name traits children =>
    rw [Expansion.size] at hlt
    by_cases hid : id = start
    · exact .inl hid
    · right
      rcases h.children.entered (by omega) (by omega) with hlink | ⟨upper, hupper, hlink⟩
      · exact ⟨start, Nat.le_refl start, by rwa [scope_of_term? (term?_of_node? h.term)]⟩
      · exact ⟨upper, by omega, hlink⟩

/-- Each node of some trees is entered in the links of the trees, or below a node of the trees. -/
theorem HoldsAll.entered {es : List Expansion} {start : Nat} {above : Option (Nat × XPaths)}
    (h : t.HoldsAll start above es) (hle : start ≤ id) (hlt : id < start + Expansion.sizeOfAll es) :
    (∃ link ∈ Expansion.links start es, link.node = id) ∨
      ∃ upper, start ≤ upper ∧ ∃ link ∈ t.scope (some upper), link.node = id := by
  cases es with
  | nil =>
    rw [Expansion.sizeOfAll] at hlt
    omega
  | cons e rest =>
    obtain ⟨he, hrest⟩ := holdsAll_cons_iff.1 h
    rw [Expansion.sizeOfAll] at hlt
    rw [Expansion.links]
    by_cases hfirst : id < start + e.size
    · rcases he.entered hle hfirst with rfl | hbelow
      · exact .inl ⟨⟨e.name, id⟩, List.mem_cons_self, rfl⟩
      · exact .inr hbelow
    · rcases hrest.entered (by omega) (by omega) with ⟨link, hlink, hid⟩ | ⟨upper, hupper, hlink⟩
      · exact .inl ⟨link, List.mem_cons_of_mem _ hlink, hid⟩
      · exact .inr ⟨upper, by omega, hlink⟩

end

/-- A node that is entered below another one has a parent. -/
theorem Arranged.parent_of_entered (h : t.Arranged) {node : Node} {upper : Nat}
    (hnode : t.node? id = some node) (hentered : ∃ link ∈ t.scope (some upper), link.node = id) :
    node.parent = some upper := by
  obtain ⟨link, hlink, rfl⟩ := hentered
  exact h.parent_of_mem_scope hlink hnode

theorem rooted_ofForest (forest : List Expansion) : (ofForest forest).Rooted := by
  intro id node hnode hparent
  have hlt := lt_size_of_node? hnode
  rw [size_ofForest] at hlt
  rcases (holdsAll_ofForest forest).entered (Nat.zero_le id) (by omega) with hlink | ⟨upper, -, hlink⟩
  · exact hlink
  · have hupper := (arranged_ofForest forest).parent_of_entered hnode hlink
    rw [hparent] at hupper
    cases hupper

/-- Nodes that are attached have parents. -/
theorem Rooted.attach (h : t.Rooted) (harranged : t.Arranged) (e : Expansion)
    (hparent : t.term? parent.id = some parent) : (t.attach parent e).Rooted := by
  intro id node hnode hnone
  by_cases hid : id < t.size
  · rw [node?_attach_of_lt hid] at hnode
    obtain ⟨old, hold, rfl⟩ := Option.map_eq_some_iff.1 hnode
    refine h id old hold ?_
    split at hnone
    · rwa [Node.parent_adopt] at hnone
    · exact hnone
  · have hlt := lt_size_of_node? hnode
    rw [size_attach] at hlt
    have hnew := holds_attach t parent e
    rcases hnew.entered (by omega) hlt with rfl | ⟨upper, -, hlink⟩
    · obtain ⟨head, hhead, -, habove⟩ := hnew.head
      obtain rfl := Option.some.inj (hhead.symm.trans hnode)
      rw [hnone] at habove
      cases habove
    · have hupper := (harranged.attach e hparent).parent_of_entered hnode hlink
      rw [hnone] at hupper
      cases hupper

/-- Whatever has no parent is a root of a reached terminology. -/
theorem Reached.rooted (h : t.Reached) : t.Rooted := by
  induction h with
  | built hbuilt =>
    obtain ⟨forest, -, rfl, -⟩ := build_eq_ok_iff.1 (Registry.build_eq_ok_iff.1 hbuilt)
    exact rooted_ofForest forest
  | builtAlone hbuilt =>
    obtain ⟨forest, -, rfl, -⟩ := build_eq_ok_iff.1 hbuilt
    exact rooted_ofForest forest
  | @changed t change hreached ih =>
    cases change with
    | regenerate id =>
      rw [Terminology.after, hreached.coherent.regenerate_eq]
      exact ih
    | graft p d registry =>
      rw [Terminology.after]
      cases hresult : (t.graft p d registry).result with
      | error _ => exact ih
      | ok pair =>
        obtain ⟨above, parent, e, -, hparent, -, hgrown, -, -⟩ := graft_eq_ok_iff.1 hresult
        have hid := hreached.coherent.id_of_term? hparent
        subst hid
        dsimp only
        rw [hgrown]
        exact ih.attach hreached.coherent.toArranged e hparent

/-! ### What the roots lead to -/

/-- The parent of a node that the roots lead to is on the way. -/
theorem Linked.upward (hid : t.Linked id) (h : t.Arranged) {node : Node} {upper : Nat}
    (hnode : t.node? id = some node) (hparent : node.parent = some upper) : t.Linked upper := by
  cases hid with
  | @root link hlink =>
    have hroot : link ∈ t.scope none := hlink
    have hnone : node.parent = none := h.parent_of_mem_scope hroot hnode
    rw [hparent] at hnone
    cases hnone
  | child hlinked hlink =>
    obtain rfl := Option.some.inj (hparent.symm.trans (h.parent_of_mem_scope hlink hnode))
    exact hlinked

theorem Linked.exists_node? (hid : t.Linked id) (h : t.Arranged) : ∃ node, t.node? id = some node := by
  cases hid with
  | root hlink =>
    obtain ⟨node, hnode, -, -⟩ := h.root _ hlink
    exact ⟨node, hnode⟩
  | child _ hlink =>
    obtain ⟨node, hnode, -, -⟩ := h.entry hlink
    exact ⟨node, hnode⟩

/-- The scope of a node that the roots lead to is one of those that they lead to. -/
theorem Linked.inReach (hid : t.Linked id) (h : t.Arranged) {node : Node} (hnode : t.node? id = some node) :
    t.InReach node.parent := by
  cases hparent : node.parent with
  | none => trivial
  | some upper => exact hid.upward h hnode hparent

/-- A list of numbers that has the roots, and with each number those below it, has all that the roots
lead to. -/
theorem Linked.mem_of_closed {ids : List Nat} (h : t.Linked id)
    (hroots : ∀ link ∈ t.roots, link.node ∈ ids)
    (hbelow : ∀ id ∈ ids, ∀ link ∈ t.scope (some id), link.node ∈ ids) : id ∈ ids := by
  induction h with
  | root hlink => exact hroots _ hlink
  | child _ hlink ih => exact hbelow _ ih _ hlink

/-- What the roots lead to is one region. -/
theorem untouched_inReach (t : Terminology) : t.Untouched t t.InReach := by
  refine ⟨fun _ _ => rfl, fun _ _ _ _ => rfl, ?_⟩
  intro scope hscope link hlink
  cases scope with
  | none => exact .root hlink
  | some id => exact .child hscope hlink

/-! ### Regions -/

/-- Names lead through a region to the same stops as soon as what they meet stands for the same. -/
theorem Untouched.leads_of_follow {stops : List Nat} (h : t.Untouched t' S)
    (hfollow : ∀ scope link target, S scope → link ∈ t.scope scope →
      t.followWithin inProgress link.node = .ok target →
      t'.followWithin inProgress link.node = .ok target ∧ S (some target))
    (hscope : S scope) (hleads : t.Leads inProgress scope names stops) :
    t'.Leads inProgress scope names stops ∧ ∀ stop ∈ stops, S (some stop) := by
  induction hleads with
  | nil => exact ⟨.nil, by simp⟩
  | @cons scope name names next stop stops hchild hstop _ ih =>
    obtain ⟨link, hlink, -, rfl⟩ := exists_link_of_child? hchild
    obtain ⟨hstop', hS⟩ := hfollow scope link stop hscope hlink hstop
    obtain ⟨hleads', hstops⟩ := ih hS
    refine ⟨.cons ?_ hstop' hleads', ?_⟩
    · rwa [child?, h.scope_eq scope hscope]
    · intro other hother
      rcases List.mem_cons.1 hother with rfl | hother
      · exact hS
      · exact hstops other hother

/-- A node in a region stands for the same term in both terminologies, and this term is in the region. -/
theorem Untouched.follow (h : t.Untouched t' S) (harranged : t.Arranged) {link : Link}
    (hscope : S scope) (hlink : link ∈ t.scope scope)
    (hfollow : t.followWithin inProgress link.node = .ok target) :
    t'.followWithin inProgress link.node = .ok target ∧ S (some target) := by
  refine followWithin_induction (motive := fun inProgress id target => ∀ scope link,
    link.node = id → S scope → link ∈ t.scope scope →
    t'.followWithin inProgress id = .ok target ∧ S (some target)) ?_ ?_ hfollow scope link rfl hscope hlink
  · rintro inProgress _ term hterm scope link rfl hscope hlink
    refine ⟨?_, h.below scope hscope link hlink⟩
    have hterm' : t'.term? link.node = some term := by
      rwa [term?, h.node_eq scope hscope link hlink]
    exact followWithin_term hterm' inProgress
  · rintro inProgress _ proxy stops target hnode hid hleads hlast ih scope link rfl hscope hlink
    have hparent : proxy.parent = scope := harranged.parent_of_mem_scope hlink hnode
    rw [hparent] at hleads
    have hnode' := hnode
    rw [← h.node_eq scope hscope link hlink] at hnode'
    obtain ⟨hleads', hstops⟩ := h.leads_of_follow
      (fun scope link target hscope hlink hstop => ih link.node target hstop scope link rfl hscope hlink)
      hscope hleads
    rw [← hparent] at hleads'
    refine ⟨(followWithin_proxy_eq_ok_iff hnode').2 ⟨hid, stops, hleads', hlast⟩, ?_⟩
    exact hstops target (List.mem_of_getLast? hlast)

/-- Names lead through a region to the same stops in both terminologies. -/
theorem Untouched.leads {stops : List Nat} (h : t.Untouched t' S) (harranged : t.Arranged)
    (hscope : S scope) (hleads : t.Leads inProgress scope names stops) :
    t'.Leads inProgress scope names stops ∧ ∀ stop ∈ stops, S (some stop) :=
  h.leads_of_follow (fun _ _ _ hscope hlink hstop => h.follow harranged hscope hlink hstop) hscope hleads

/-- A look-up from the roots ends where the roots lead to. -/
theorem Arranged.linked_of_locate (h : t.Arranged) {p : Pointer} (hlocate : t.locate none p = .ok target) :
    t.Linked target := by
  obtain ⟨stops, hleads, hlast⟩ := locate_eq_ok_iff.1 hlocate
  have hroots : t.InReach none := trivial
  have hstops := ((untouched_inReach t).leads h hroots hleads).2
  exact hstops target (List.mem_of_getLast? hlast)

/-- What the roots lead to stands for something that they lead to. -/
theorem Arranged.linked_of_follow (h : t.Arranged) (hid : t.Linked id) (hfollow : t.follow id = .ok target) :
    t.Linked target := by
  have hreach := untouched_inReach t
  cases hid with
  | root hlink => exact (hreach.follow h (show t.InReach none from trivial) hlink hfollow).2
  | child habove hlink => exact (hreach.follow h (show t.InReach (some _) from habove) hlink hfollow).2

/-! ### Attaching a tree -/

theorem scope_attach_of_ne (hid : id < t.size) (hne : id ≠ parent.id) :
    (t.attach parent e).scope (some id) = t.scope (some id) := by
  rw [scope, scope, term?_attach_of_lt hid]
  cases t.term? id with
  | none => rfl
  | some term => rw [Option.map_some, if_neg hne]

/-- The tree is entered below the term that it is attached to. -/
theorem entry_mem_scope_attach (hparent : t.term? parent.id = some parent) :
    ⟨e.name, t.size⟩ ∈ (t.attach parent e).scope (some parent.id) := by
  have hterm : (t.attach parent e).term? parent.id = some (parent.adopt ⟨e.name, t.size⟩) := by
    rw [term?_attach_of_lt (lt_size_of_term? hparent), hparent, Option.map_some, if_pos rfl]
  rw [scope_of_term? hterm]
  exact Roster.mem_of_find? (Roster.find?_put_self (⟨e.name, t.size⟩ : Link) parent.children)

/-- The roots still lead to the nodes up to the one that a tree is attached to. -/
theorem Linked.attach_of_le (hid : t.Linked id) (h : t.Arranged) (e : Expansion)
    (hle : id ≤ parent.id) : (t.attach parent e).Linked id := by
  induction hid with
  | root hlink => exact .root hlink
  | @child upper link _ hlink ih =>
    have hlt := h.lt_of_mem_scope hlink
    obtain ⟨node, hnode, -, -⟩ := h.entry hlink
    have hsize := lt_size_of_node? hnode
    refine .child (ih (by omega)) ?_
    rwa [scope_attach_of_ne (by omega) (by omega)]

/-- The roots lead to all nodes of a tree that is attached to something that they lead to. -/
theorem Linked.attach_of_size_le (hparent : t.Linked parent.id) (h : t.Arranged)
    (hterm : t.term? parent.id = some parent) (hle : t.size ≤ id) (hlt : id < t.size + e.size) :
    (t.attach parent e).Linked id := by
  induction id using Nat.strongRecOn with
  | _ id ih =>
    rcases (holds_attach t parent e).entered hle hlt with rfl | ⟨upper, hupper, link, hlink, rfl⟩
    · exact .child (hparent.attach_of_le h e (Nat.le_refl _)) (entry_mem_scope_attach hterm)
    · have hless := (h.attach e hterm).lt_of_mem_scope hlink
      exact .child (ih upper hless hupper (by omega)) hlink

/-- Attaching a tree touches nothing below what the roots do not lead to afterwards. -/
theorem Arranged.untouched_attach (h : t.Arranged) (hterm : t.term? parent.id = some parent)
    (hparent : t.Linked parent.id) : t.Untouched (t.attach parent e)
      fun scope => ∃ id, scope = some id ∧ id < t.size ∧ ¬ (t.attach parent e).Linked id := by
  have hlinked : (t.attach parent e).Linked parent.id := hparent.attach_of_le h e (Nat.le_refl _)
  have hbelow : ∀ id, ¬ (t.attach parent e).Linked id → ∀ link ∈ t.scope (some id),
      link.node < t.size ∧ ¬ (t.attach parent e).Linked link.node := by
    intro id hid link hlink
    obtain ⟨node, hnode, -, habove⟩ := h.entry hlink
    refine ⟨lt_size_of_node? hnode, fun hlinked => hid ?_⟩
    obtain ⟨node', hnode', -, habove'⟩ := exists_node?_attach parent e hnode
    exact hlinked.upward (h.attach e hterm) hnode' (habove'.trans habove)
  refine ⟨?_, ?_, ?_⟩
  · rintro _ ⟨id, rfl, hlt, hid⟩
    refine scope_attach_of_ne hlt ?_
    rintro rfl
    exact hid hlinked
  · rintro _ ⟨id, rfl, -, hid⟩ link hlink
    obtain ⟨hlt, hnot⟩ := hbelow id hid link hlink
    have hne : link.node ≠ parent.id := by
      intro heq
      rw [heq] at hnot
      exact hnot hlinked
    rw [node?_attach_of_lt hlt]
    simp [hne]
  · rintro _ ⟨id, rfl, -, hid⟩ link hlink
    obtain ⟨hlt, hnot⟩ := hbelow id hid link hlink
    exact ⟨link.node, rfl, hlt, hnot⟩

/-- A proxy that the roots do not lead to, whose parent they do not lead to either, leads where it did
before the tree was attached. -/
theorem Coherent.resolves_of_unlinked_parent (h : t.Coherent)
    (hterm : t.term? parent.id = some parent) (hparent : t.Linked parent.id) {proxy : Proxy} {upper : Nat}
    (hnode : (t.attach parent e).node? id = some (.proxy proxy)) (habove : proxy.parent = some upper)
    (hupper : ¬ (t.attach parent e).Linked upper) :
    ∃ term, (t.attach parent e).resolveProxy id = .ok term := by
  have harranged := h.toArranged.attach e hterm
  have hplaced := harranged.placed id _ hnode
  have hless := (hplaced.parent upper habove).1
  have hsize := lt_size_of_node? hnode
  rw [size_attach] at hsize
  -- a new node would be linked, and its parent with it
  have hlt : id < t.size := by
    by_contra hge
    have hid := hparent.attach_of_size_le (e := e) h.toArranged hterm (by omega) hsize
    exact hupper (hid.upward harranged hnode habove)
  have hold : t.node? id = some (.proxy proxy) := node?_of_attach_proxy hlt hnode
  obtain ⟨target, -, hfollow, -⟩ := h.exists_follow hold
  obtain ⟨hid, stops, hleads, hlast⟩ := (followWithin_proxy_eq_ok_iff hold).1 hfollow
  have hleads' := ((h.toArranged.untouched_attach hterm hparent).leads h.toArranged
    ⟨upper, habove, by omega, hupper⟩ hleads).1
  have hfollow' : (t.attach parent e).follow id = .ok target :=
    (followWithin_proxy_eq_ok_iff hnode).2 ⟨hid, stops, hleads', hlast⟩
  obtain ⟨term, hfound⟩ := exists_term_of_followWithin hfollow'
  exact ⟨term, resolveProxy_eq_ok_iff.2 ⟨target, hfollow', hfound⟩⟩

/-! ### What makes a graft fail -/

/-- A graft whose pointer leads to a term, and whose declaration can be expanded, succeeds exactly if
two kinds of proxies stand for terms when the tree is attached: those that the roots lead to, and those
that were replaced while the roots still lead to their parents. Detached terms, and all that is below
them, never make it fail. -/
theorem Reached.graft_eq_ok_iff_linked (h : t.Reached) {p : Pointer} {d : Declaration}
    {registry : Option Registry} (hlocate : t.locate none p = .ok parent.id)
    (hterm : t.term? parent.id = some parent) (hexpand : (d.expand registry).result = .ok e) :
    (t.graft p d registry).result = .ok (t.attach parent e, t.size) ↔
      ∀ proxy, Node.proxy proxy ∈ (t.attach parent e).nodes →
        ((t.attach parent e).Linked proxy.id ∨
          ∃ upper, proxy.parent = some upper ∧ (t.attach parent e).Linked upper) →
        ∃ term, (t.attach parent e).resolveProxy proxy.id = .ok term := by
  have hcoherent := h.coherent
  have hparent := hcoherent.linked_of_locate hlocate
  rw [graft_eq_ok_iff]
  constructor
  · rintro ⟨_, other, e', hlocate', hterm', hexpand', hgrown, hlinks, -⟩ proxy hproxy -
    exact checkLinks_eq_ok_iff.1 hlinks proxy hproxy
  · intro hresolves
    refine ⟨parent.id, parent, e, hlocate, hterm, hexpand, rfl, checkLinks_eq_ok_iff.2 ?_, rfl⟩
    intro proxy hproxy
    obtain ⟨id, hnode⟩ := List.mem_iff_getElem?.1 hproxy
    have hid : proxy.id = id :=
      ((hcoherent.toArranged.attach e hterm).placed id (.proxy proxy) hnode).id_eq
    subst hid
    cases habove : proxy.parent with
    | none =>
      obtain ⟨link, hlink, hid⟩ :=
        (h.rooted.attach hcoherent.toArranged e hterm) proxy.id (.proxy proxy) hnode habove
      exact hresolves proxy hproxy (.inl (hid ▸ .root hlink))
    | some upper =>
      by_cases hupper : (t.attach parent e).Linked upper
      · exact hresolves proxy hproxy (.inr ⟨upper, habove, hupper⟩)
      · exact hcoherent.resolves_of_unlinked_parent hterm hparent hnode habove hupper

/-! ### Two grafts below a person -/

namespace Sample

/-- A role that has another name for its text. -/
def aliasedRole : Declaration :=
  declaration 10 "role" [] [declaration 11 "text" [] [],
    declaration 12 "alias" [(.proxy, .pointer (pointer ["text"]))] []]

/-- The terminology with this role for persons. -/
def aliased : Terminology := built.after (.graft (pointer ["person"]) aliasedRole (some registry))

/-- The person of this terminology. -/
def aliasedPerson : Term := (aliased.term? 5).get (by decide +kernel)

/-- The tree of the role with a code. -/
def roleTree : Expansion := (role.expand (some registry)).result.toOption.get (by decide +kernel)

/-- The role with the alias is replaced, and the proxy in it is detached with it. -/
theorem graft_of_detached : aliased.Reached ∧
    aliased.locate none (pointer ["person"]) = .ok aliasedPerson.id ∧
    aliased.term? aliasedPerson.id = some aliasedPerson ∧
    (role.expand (some registry)).result = .ok roleTree ∧
    (aliased.graft (pointer ["person"]) role (some registry)).result =
      .ok (aliased.attach aliasedPerson roleTree, 14) := by
  have hreached : aliased.Reached := reached_built.changed _
  have hlocate : aliased.locate none (pointer ["person"]) = .ok aliasedPerson.id := by decide +kernel
  have hterm : aliased.term? aliasedPerson.id = some aliasedPerson := by decide +kernel
  have hexpand : (role.expand (some registry)).result = .ok roleTree := eq_ok_get _
  refine ⟨hreached, hlocate, hterm, hexpand, ?_⟩
  have hsize : aliased.size = 14 := by decide +kernel
  rw [← hsize]
  refine (Reached.graft_eq_ok_iff_linked hreached hlocate hterm hexpand).2 ?_
  intro proxy hproxy _
  have hall : ∀ node ∈ (aliased.attach aliasedPerson roleTree).nodes,
      ((aliased.attach aliasedPerson roleTree).resolveProxy node.id).toOption.isSome := by
    decide +kernel
  exact ⟨_, eq_ok_get (hall _ hproxy)⟩

/-- The terminology with a term in the place of the proxy for texts of roles that persons have. -/
def replaced : Terminology :=
  built.after (.graft (pointer ["person"]) (declaration 10 "roleText" [] []) (some registry))

/-- The person of this terminology. -/
def replacedPerson : Term := (replaced.term? 5).get (by decide +kernel)

/-- A role without a text. -/
def plainRole : Declaration := declaration 11 "role" [] []

/-- The tree of the role without a text. -/
def plainRoleTree : Expansion :=
  (plainRole.expand (some registry)).result.toOption.get (by decide +kernel)

/-- All proxies that the roots lead to stand for terms when the role is attached, and yet the graft
fails, because of the proxy that was replaced before. -/
theorem graft_fails_of_replaced : replaced.Reached ∧
    replaced.locate none (pointer ["person"]) = .ok replacedPerson.id ∧
    replaced.term? replacedPerson.id = some replacedPerson ∧
    (plainRole.expand (some registry)).result = .ok plainRoleTree ∧
    (∀ proxy, Node.proxy proxy ∈ (replaced.attach replacedPerson plainRoleTree).nodes →
      (replaced.attach replacedPerson plainRoleTree).Linked proxy.id →
      ∃ term, (replaced.attach replacedPerson plainRoleTree).resolveProxy proxy.id = .ok term) ∧
    (replaced.graft (pointer ["person"]) plainRole (some registry)).result =
      .error (.badPointer ⟨"roleText"⟩ (pointer ["role", "text"])) := by
  have hlocate : replaced.locate none (pointer ["person"]) = .ok replacedPerson.id := by decide +kernel
  have hterm : replaced.term? replacedPerson.id = some replacedPerson := by decide +kernel
  refine ⟨reached_built.changed _, hlocate, hterm, eq_ok_get _, ?_, by decide +kernel⟩
  intro proxy _ hlinked
  have hroots : ∀ link ∈ (replaced.attach replacedPerson plainRoleTree).roots,
      link.node ∈ [0, 1, 2, 3, 4, 5, 6, 10, 11, 12] := by decide +kernel
  have hbelow : ∀ id ∈ [0, 1, 2, 3, 4, 5, 6, 10, 11, 12],
      ∀ link ∈ (replaced.attach replacedPerson plainRoleTree).scope (some id),
        link.node ∈ [0, 1, 2, 3, 4, 5, 6, 10, 11, 12] := by decide +kernel
  have hall : ∀ id ∈ [0, 1, 2, 3, 4, 5, 6, 10, 11, 12],
      ((replaced.attach replacedPerson plainRoleTree).resolveProxy id).toOption.isSome := by
    decide +kernel
  exact ⟨_, eq_ok_get (hall proxy.id (hlinked.mem_of_closed hroots hbelow))⟩

end Sample

end TermAtlas.Terminology
