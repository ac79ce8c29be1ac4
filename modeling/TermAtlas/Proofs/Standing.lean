import Mathlib.Logic.Relation
import TermAtlas.Proofs.Transparency
import TermAtlas.Proofs.Walk

/-!
# What nodes stand for

A term stands for itself, and a proxy for the term that its pointer leads to, where everything that is met on the
way is replaced by what it stands for. This is said without any proxies in progress, and it need not be true of
anything: a pointer may miss a name, and two proxies may wait for each other.

Following finds what a node stands for, whenever it stands for something. What a proxy meets on its way is found
before the proxy itself is, and so nothing that stands for a term comes back to itself
(`StandsFor.acc_meets`). All proxies in progress meet the one that is followed, and therefore it is none of
them.

## What is proved

* `standsFor_induction` — induction on why a node stands for a term.
* `standsFor_and_goes_unique` — a node stands for one term at most, and names lead to one scope at most.
* `standsFor_of_followWithin`, `StandsFor.followWithin_eq` — what is found is right, and it is found.
* `Consistent.error_of_followWithin` — why nothing is found.
* `Consistent.follow_iff_standsFor` — following, and the check of all proxies.
-/

namespace TermAtlas.Terminology

/-- Nodes are numbered by their places, and each entry of a scope leads to a node of its name that says that the
scope is where it belongs. -/
structure Consistent (t : Terminology) : Prop where
  /-- The node at a place has the place as its number. -/
  id_eq : ∀ id node, t.node? id = some node → node.id = id
  /-- The node of an entry has its name, and its parent is the scope. -/
  entry : ∀ scope, ∀ link ∈ t.scope scope,
    ∃ node, t.node? link.node = some node ∧ node.name = link.name ∧ node.parent = scope

mutual

/-- `t.StandsFor id target`: the node `id` stands for the term `target`. -/
inductive StandsFor (t : Terminology) : Nat → Nat → Prop where
  /-- A term stands for itself. -/
  | term {id : Nat} {term : Term} : t.node? id = some (.term term) → StandsFor t id id
  /-- A proxy stands for what its pointer leads to. -/
  | proxy {id target : Nat} {proxy : Proxy} : t.node? id = some (.proxy proxy) →
      proxy.pointer.segments ≠ [] → Goes t proxy.parent proxy.pointer.segments (some target) →
      StandsFor t id target

/-- `t.Goes scope names last`: the names lead down from `scope` to the scope `last`. -/
inductive Goes (t : Terminology) : Option Nat → List Name → Option Nat → Prop where
  /-- Without names there is nowhere to go. -/
  | stay {scope : Option Nat} : Goes t scope [] scope
  /-- The next name is looked up in the scope, and the others below what it stands for. -/
  | down {scope last : Option Nat} {name : Name} {names : List Name} {next stop : Nat} :
      t.child? scope name = some next → StandsFor t next stop → Goes t (some stop) names last →
      Goes t scope (name :: names) last

end

/-- The names that lead down from `scope` lead past the node `next`, which has then to stand for something. -/
def Passes (t : Terminology) (scope : Option Nat) (names : List Name) (next : Nat) : Prop :=
  ∃ front name back reached, names = front ++ name :: back ∧ t.Goes scope front reached ∧
    t.child? reached name = some next

/-- The node `next` is on the way of the proxy `id`. -/
def Meets (t : Terminology) (next id : Nat) : Prop :=
  ∃ proxy, t.node? id = some (.proxy proxy) ∧ t.Passes proxy.parent proxy.pointer.segments next

/-- The pointer of a proxy is empty, or there is no node of the next name where it has led so far. -/
def Stuck (t : Terminology) (proxy : Proxy) : Prop :=
  proxy.pointer.segments = [] ∨ ∃ front missing back reached,
    proxy.pointer.segments = front ++ missing :: back ∧ t.Goes proxy.parent front reached ∧
      t.child? reached missing = none

variable {t : Terminology} {scope last : Option Nat} {names : List Name} {name : Name}
  {inProgress : List Nat} {id next stop target : Nat} {proxy : Proxy} {before : List Proxy} {e : Error}

/-! ### One term at most -/

/-- What is true of terms, and of a proxy as soon as it is true of the way that its pointer leads, is true of
everything that stands for a term. -/
theorem standsFor_induction {P : Nat → Nat → Prop} {Q : Option Nat → List Name → Option Nat → Prop}
    (term : ∀ id term, t.node? id = some (.term term) → P id id)
    (proxy : ∀ id target proxy, t.node? id = some (.proxy proxy) → proxy.pointer.segments ≠ [] →
      t.Goes proxy.parent proxy.pointer.segments (some target) →
      Q proxy.parent proxy.pointer.segments (some target) → P id target)
    (stay : ∀ scope, Q scope [] scope)
    (down : ∀ scope last name names next stop, t.child? scope name = some next → t.StandsFor next stop →
      t.Goes (some stop) names last → P next stop → Q (some stop) names last → Q scope (name :: names) last) :
    (∀ id target, t.StandsFor id target → P id target) ∧
      ∀ scope names last, t.Goes scope names last → Q scope names last := by
  constructor
  · intro id target h
    exact @StandsFor.rec t (fun id target _ => P id target) (fun scope names last _ => Q scope names last)
      (term _ _) (proxy _ _ _) (stay _) (down _ _ _ _ _ _) id target h
  · intro scope names last h
    exact @Goes.rec t (fun id target _ => P id target) (fun scope names last _ => Q scope names last)
      (term _ _) (proxy _ _ _) (stay _) (down _ _ _ _ _ _) scope names last h

theorem standsFor_and_goes_unique :
    (∀ id target, t.StandsFor id target → ∀ other, t.StandsFor id other → other = target) ∧
    ∀ scope names last, t.Goes scope names last → ∀ other, t.Goes scope names other → other = last := by
  apply standsFor_induction
  case term =>
    intro id term hnode other h
    cases h with
    | term => rfl
    | proxy hproxy => cases hnode.symm.trans hproxy
  case proxy =>
    intro id target proxy hnode _ _ ih other h
    cases h with
    | term hterm => cases hnode.symm.trans hterm
    | proxy hproxy _ hgoes =>
      cases hnode.symm.trans hproxy
      exact Option.some.inj (ih _ hgoes)
  case stay =>
    intro scope other h
    cases h
    rfl
  case down =>
    intro scope last name names next stop hchild _ _ ih ihrest other h
    cases h with
    | down hchild' hstands hgoes =>
      cases hchild.symm.trans hchild'
      obtain rfl := ih _ hstands
      exact ihrest _ hgoes

/-- A node stands for one term at most. -/
theorem StandsFor.unique (h : t.StandsFor id target) {other : Nat} (h' : t.StandsFor id other) :
    other = target := standsFor_and_goes_unique.1 id target h other h'

/-! ### What is found is right -/

theorem Leads.goes {stops : List Nat} (h : t.Leads inProgress scope names stops)
    (hstep : ∀ next stop, t.followWithin inProgress next = .ok stop → t.StandsFor next stop) :
    t.Goes scope names (stops.getLast?.or scope) := by
  induction h with
  | nil => exact .stay
  | cons hchild hfollow _ ih =>
    rw [getLast?_cons_or]
    exact .down hchild (hstep _ _ hfollow) ih

/-- What is found is what the node stands for. -/
theorem standsFor_of_followWithin (h : t.followWithin inProgress id = .ok target) :
    t.StandsFor id target := by
  refine followWithin_induction (motive := fun _ id target => t.StandsFor id target) ?_ ?_ h
  · intro _ id term hterm
    exact .term (node?_of_term? hterm)
  · intro inProgress id proxy stops target hnode _ hleads hlast ih
    have hgoes := hleads.goes ih
    rw [hlast, Option.some_or] at hgoes
    refine .proxy hnode (fun hnil => ?_) hgoes
    rw [hnil] at hleads
    cases hleads
    cases hlast

/-! ### What is right is found -/

theorem not_passes_nil : ¬ t.Passes scope [] next := by
  rintro ⟨front, name, back, reached, hnames, -⟩
  simp at hnames

/-- On the way are what the first name leads to, and what is on the way from there on. -/
theorem passes_cons_iff {first : Nat} (hchild : t.child? scope name = some first)
    (hstands : t.StandsFor first stop) :
    t.Passes scope (name :: names) next ↔ next = first ∨ t.Passes (some stop) names next := by
  constructor
  · rintro ⟨front, other, back, reached, hnames, hgoes, hnext⟩
    cases hgoes with
    | stay =>
      obtain ⟨rfl, -⟩ := List.cons.inj hnames
      exact .inl (Option.some.inj (hnext.symm.trans hchild))
    | down hchild' hstands' hgoes =>
      obtain ⟨rfl, hrest⟩ := List.cons.inj hnames
      obtain rfl := Option.some.inj (hchild'.symm.trans hchild)
      obtain rfl := hstands.unique hstands'
      exact .inr ⟨_, other, back, reached, hrest, hgoes, hnext⟩
  · rintro (rfl | ⟨front, other, back, reached, rfl, hgoes, hnext⟩)
    · exact ⟨[], name, names, scope, rfl, .stay, hchild⟩
    · exact ⟨name :: front, other, back, reached, rfl, .down hchild hstands hgoes, hnext⟩

theorem acc_meets : (∀ id target, t.StandsFor id target → Acc t.Meets id) ∧
    ∀ scope names last, t.Goes scope names last → ∀ next, t.Passes scope names next → Acc t.Meets next := by
  apply standsFor_induction
  case term =>
    intro id term hnode
    refine .intro id fun next ⟨proxy, hproxy, _⟩ => ?_
    cases hnode.symm.trans hproxy
  case proxy =>
    intro id target proxy hnode _ _ ih
    refine .intro id fun next ⟨other, hother, hpasses⟩ => ?_
    cases hnode.symm.trans hother
    exact ih next hpasses
  case stay =>
    intro scope next hpasses
    exact absurd hpasses not_passes_nil
  case down =>
    intro scope last name names next stop hchild hstands _ ih ihrest other hpasses
    rcases (passes_cons_iff hchild hstands).1 hpasses with rfl | hpasses
    · exact ih
    · exact ihrest other hpasses

/-- There is no endless way from proxy to proxy below what stands for a term. -/
theorem StandsFor.acc_meets (h : t.StandsFor id target) : Acc t.Meets id :=
  Terminology.acc_meets.1 id target h

/-- What stands for a term does not wait for itself. -/
theorem StandsFor.not_meets_self (h : t.StandsFor id target) : ¬ Relation.TransGen t.Meets id id := by
  have hacc : Acc (Relation.TransGen t.Meets) id := h.acc_meets.transGen
  clear h
  induction hacc with
  | intro id _ ih => exact fun hself => ih id hself hself

theorem followWithin_of_standsFor :
    (∀ id target, t.StandsFor id target → ∀ inProgress,
      (∀ above ∈ inProgress, Relation.TransGen t.Meets id above) →
      t.followWithin inProgress id = .ok target) ∧
    ∀ scope names last, t.Goes scope names last → ∀ inProgress,
      (∀ next, t.Passes scope names next → ∀ above ∈ inProgress, Relation.TransGen t.Meets next above) →
      ∃ stops, t.Leads inProgress scope names stops ∧ stops.getLast?.or scope = last := by
  apply standsFor_induction
  case term =>
    intro id term hnode inProgress _
    exact followWithin_term (term?_of_node? hnode) inProgress
  case proxy =>
    intro id target proxy hnode hne hgoes ih inProgress habove
    have hstands : t.StandsFor id target := .proxy hnode hne hgoes
    -- what is on the way is met by this proxy, and so by all that wait for it
    obtain ⟨stops, hleads, hlast⟩ := ih (inProgress ++ [id]) fun next hpasses above hmem => by
      have hmeets : t.Meets next id := ⟨proxy, hnode, hpasses⟩
      rcases List.mem_append.1 hmem with hmem | hmem
      · exact .head hmeets (habove above hmem)
      · obtain rfl := List.mem_singleton.1 hmem
        exact .single hmeets
    refine (followWithin_proxy_eq_ok_iff hnode).2 ⟨fun hmem => ?_, stops, hleads, ?_⟩
    · exact hstands.not_meets_self (habove id hmem)
    · exact hleads.getLast?_eq hne hlast
  case stay =>
    intro scope inProgress _
    exact ⟨[], .nil, rfl⟩
  case down =>
    intro scope last name names next stop hchild hstands _ ih ihrest inProgress habove
    have hfollow := ih inProgress (habove next ((passes_cons_iff hchild hstands).2 (.inl rfl)))
    obtain ⟨stops, hleads, hlast⟩ := ihrest inProgress fun other hpasses =>
      habove other ((passes_cons_iff hchild hstands).2 (.inr hpasses))
    exact ⟨stop :: stops, .cons hchild hfollow hleads, by rwa [getLast?_cons_or]⟩

/-- What a node stands for is found, if the proxies in progress wait for the node. -/
theorem StandsFor.followWithin_eq (h : t.StandsFor id target)
    (habove : ∀ above ∈ inProgress, Relation.TransGen t.Meets id above) :
    t.followWithin inProgress id = .ok target :=
  followWithin_of_standsFor.1 id target h inProgress habove

theorem follow_eq_ok_iff_standsFor : t.follow id = .ok target ↔ t.StandsFor id target := by
  constructor
  · exact standsFor_of_followWithin
  · intro h
    exact h.followWithin_eq fun above hmem => absurd hmem List.not_mem_nil

/-! ### Why nothing is found -/

section Step

variable {step : Option Nat → Name → Except Error Nat} {bad : Error} {first : Name} {rest : List Name}
  (hmissing : ∀ scope name, t.child? scope name = none → step scope name = .error bad)
  (hfound : ∀ scope name next, t.child? scope name = some next →
    step scope name = t.followWithin inProgress next)

include hmissing hfound

/-- A step succeeds at a node that stands for something. -/
theorem standsFor_of_step (h : step scope name = .ok stop) :
    ∃ next, t.child? scope name = some next ∧ t.StandsFor next stop := by
  cases hchild : t.child? scope name with
  | none => cases (hmissing scope name hchild).symm.trans h
  | some next =>
    rw [hfound scope name next hchild] at h
    exact ⟨next, rfl, standsFor_of_followWithin h⟩

/-- A step fails as there is no node, or as the node is refused. -/
theorem missing_or_refused_of_step (h : step scope name = .error e) : t.child? scope name = none ∧ e = bad ∨
    ∃ next, t.child? scope name = some next ∧ t.followWithin inProgress next = .error e := by
  cases hchild : t.child? scope name with
  | none => exact .inl ⟨rfl, Except.error.inj (h.symm.trans (hmissing scope name hchild))⟩
  | some next => exact .inr ⟨next, rfl, (hfound scope name next hchild).symm.trans h⟩

/-- Going down fails at a name that the names before it have led to. -/
theorem exists_step_of_descend (h : descend step scope first rest = .error e) : ∃ front name back reached,
    first :: rest = front ++ name :: back ∧ t.Goes scope front reached ∧
      (t.child? reached name = none ∧ e = bad ∨
        ∃ next, t.child? reached name = some next ∧ t.followWithin inProgress next = .error e) := by
  induction rest generalizing scope first with
  | nil =>
    have hone : descend step scope first [] = step scope first := by
      cases hfirst : step scope first <;> simp [descend, hfirst, bind, Except.bind, pure, Except.pure]
    rw [hone] at h
    exact ⟨[], first, [], scope, rfl, .stay, missing_or_refused_of_step hmissing hfound h⟩
  | cons second rest ih =>
    rw [descend_cons] at h
    cases hfirst : step scope first with
    | error cause =>
      rw [hfirst] at h
      obtain rfl := Except.error.inj h
      exact ⟨[], first, second :: rest, scope, rfl, .stay, missing_or_refused_of_step hmissing hfound hfirst⟩
    | ok stop =>
      rw [hfirst] at h
      obtain ⟨next, hchild, hstands⟩ := standsFor_of_step hmissing hfound hfirst
      obtain ⟨front, name, back, reached, hnames, hgoes, hwhy⟩ := ih h
      exact ⟨first :: front, name, back, reached, by rw [hnames]; rfl, .down hchild hstands hgoes, hwhy⟩

end Step

/-- Following a proxy is refused because the proxy is in progress, because it is stuck, or because what is met on
the way is refused. -/
theorem error_of_followWithin_proxy (hnode : t.node? id = some (.proxy proxy))
    (h : t.followWithin inProgress id = .error e) :
    (id ∈ inProgress ∧ e = .circularReference ((inProgress.filterMap t.node?).map Node.name ++ [proxy.name])) ∨
    (t.Stuck proxy ∧ e = .badPointer proxy.name proxy.pointer) ∨
    (id ∉ inProgress ∧ ∃ scope name next, t.child? scope name = some next ∧
      t.followWithin (inProgress ++ [id]) next = .error e) := by
  rw [followWithin_of_proxy hnode] at h
  split at h
  · next hmem => exact .inl ⟨hmem, (Except.error.inj h).symm⟩
  · next hnew =>
    refine .inr ?_
    split at h
    · next hnil => exact .inl ⟨.inl hnil, (Except.error.inj h).symm⟩
    · next first rest hsegments =>
      obtain ⟨front, name, back, reached, hnames, hgoes, ⟨hmissing, he⟩ | ⟨next, hchild, hnext⟩⟩ :=
        exists_step_of_descend (fun _ _ hnone => by rw [hnone]) (fun _ _ _ hsome => by rw [hsome]) h
      · exact .inl ⟨.inr ⟨front, name, back, reached, hsegments.trans hnames, hgoes, hmissing⟩, he⟩
      · exact .inr ⟨hnew, reached, name, next, hchild, hnext⟩

theorem Consistent.exists_node (h : t.Consistent) (hchild : t.child? scope name = some next) :
    ∃ node, t.node? next = some node := by
  obtain ⟨link, hlink, -, rfl⟩ := exists_link_of_child? hchild
  obtain ⟨node, hnode, -⟩ := h.entry scope link hlink
  exact ⟨node, hnode⟩

/-- The proxies in progress, if all numbers in progress are numbers of proxies. -/
theorem filterMap_inProgress
    (hbefore : inProgress.map t.node? = before.map fun proxy => some (Node.proxy proxy)) :
    inProgress.filterMap t.node? = before.map Node.proxy := by
  have h : (inProgress.map t.node?).filterMap id = inProgress.filterMap t.node? := List.filterMap_map
  rw [← h, hbefore, List.filterMap_map]
  exact congrFun List.filterMap_eq_map before

theorem mem_of_inProgress
    (hbefore : inProgress.map t.node? = before.map fun proxy => some (Node.proxy proxy))
    (hnode : t.node? id = some (.proxy proxy)) (hmem : id ∈ inProgress) : proxy ∈ before := by
  have hmap : t.node? id ∈ inProgress.map t.node? := List.mem_map_of_mem hmem
  rw [hbefore, hnode] at hmap
  obtain ⟨other, hother, heq⟩ := List.mem_map.1 hmap
  cases heq
  exact hother

/-- Why a node is refused: a proxy is stuck, or a proxy that is in progress is met once more. -/
theorem Consistent.error_of_followWithin (h : t.Consistent)
    (hbefore : inProgress.map t.node? = before.map fun proxy => some (Node.proxy proxy)) {node : Node}
    (hnode : t.node? id = some node) (herror : t.followWithin inProgress id = .error e) :
    (∃ proxy, Node.proxy proxy ∈ t.nodes ∧ t.Stuck proxy ∧ e = .badPointer proxy.name proxy.pointer) ∨
    ∃ more last, (∀ proxy ∈ more, Node.proxy proxy ∈ t.nodes) ∧ last ∈ before ++ more ∧
      e = .circularReference ((before ++ more ++ [last]).map Proxy.name) := by
  -- with each proxy there are fewer nodes that are not in progress
  induction hlength : (t.others inProgress).length using Nat.strongRecOn
    generalizing inProgress before id node with
  | _ length ih =>
    cases node with
    | term term =>
      rw [followWithin_term (term?_of_node? hnode)] at herror
      cases herror
    | proxy proxy =>
      have hproxy : Node.proxy proxy ∈ t.nodes := List.mem_of_getElem? hnode
      rcases error_of_followWithin_proxy hnode herror with ⟨hmem, rfl⟩ | ⟨hstuck, rfl⟩ |
        ⟨hnew, scope, name, next, hchild, hnext⟩
      · refine .inr ⟨[], proxy, nofun, ?_, ?_⟩
        · rw [List.append_nil]
          exact mem_of_inProgress hbefore hnode hmem
        · rw [filterMap_inProgress hbefore, List.map_map, List.append_nil, List.map_append]
          rfl
      · exact .inl ⟨proxy, hproxy, hstuck, rfl⟩
      · obtain ⟨found, hfound⟩ := h.exists_node hchild
        have hless := length_others_lt (lt_size_of_node? hnode) hnew
        have hbefore' : (inProgress ++ [id]).map t.node? =
            (before ++ [proxy]).map fun proxy => some (Node.proxy proxy) := by
          rw [List.map_append, List.map_append, hbefore, List.map_singleton, List.map_singleton, hnode]
        rcases ih _ (hlength ▸ hless) hbefore' hfound hnext rfl with hstuck | ⟨more, last, hmore, hlast, he⟩
        · exact .inl hstuck
        · refine .inr ⟨proxy :: more, last, List.forall_mem_cons.2 ⟨hproxy, hmore⟩, ?_, ?_⟩
          · simpa using hlast
          · simpa using he

/-! ### Following -/

theorem Consistent.error_of_follow (h : t.Consistent) {node : Node} (hnode : t.node? id = some node)
    (herror : t.follow id = .error e) :
    (∃ proxy, Node.proxy proxy ∈ t.nodes ∧ t.Stuck proxy ∧ e = .badPointer proxy.name proxy.pointer) ∨
    ∃ proxies last, (∀ proxy ∈ proxies, Node.proxy proxy ∈ t.nodes) ∧ last ∈ proxies ∧
      e = .circularReference ((proxies ++ [last]).map Proxy.name) := by
  have hnone : ([] : List Nat).map t.node? =
      ([] : List Proxy).map fun proxy => some (Node.proxy proxy) := rfl
  exact h.error_of_followWithin hnone hnode herror

theorem Consistent.follow_eq_unknown_iff (h : t.Consistent) {other : Nat} :
    t.follow id = .error (.unknownTerm other) ↔ other = id ∧ t.size ≤ id := by
  constructor
  · intro herror
    cases hnode : t.node? id with
    | none =>
      rw [follow, followWithin_of_none hnode] at herror
      cases herror
      exact ⟨rfl, List.getElem?_eq_none_iff.1 hnode⟩
    | some node =>
      rcases h.error_of_follow hnode herror with ⟨_, _, _, he⟩ | ⟨_, _, _, _, he⟩
      · cases he
      · cases he
  · rintro ⟨rfl, hsize⟩
    exact followWithin_of_none (List.getElem?_eq_none hsize) []

/-- The check passes exactly if every proxy stands for a term. -/
theorem Consistent.checkLinks_eq_ok_iff_standsFor (h : t.Consistent) : t.checkLinks.result = .ok () ↔
    ∀ id proxy, t.node? id = some (.proxy proxy) → ∃ target, t.StandsFor id target := by
  have hresolve : ∀ id, (∃ term, t.resolveProxy id = .ok term) ↔ ∃ target, t.StandsFor id target := by
    intro id
    simp only [resolveProxy_eq_ok_iff, ← follow_eq_ok_iff_standsFor]
    constructor
    · rintro ⟨term, target, hfollow, -⟩
      exact ⟨target, hfollow⟩
    · rintro ⟨target, hfollow⟩
      obtain ⟨term, hterm⟩ := exists_term_of_followWithin hfollow
      exact ⟨term, target, hfollow, hterm⟩
  rw [checkLinks_eq_ok_iff]
  simp only [hresolve]
  constructor
  · intro hall id proxy hnode
    obtain rfl : proxy.id = id := h.id_eq id _ hnode
    exact hall proxy (List.mem_of_getElem? hnode)
  · intro hall proxy hmem
    obtain ⟨id, hnode⟩ := List.mem_iff_getElem?.1 hmem
    obtain rfl : proxy.id = id := h.id_eq id _ hnode
    exact hall proxy.id proxy hnode

theorem Arranged.consistent (h : t.Arranged) : t.Consistent :=
  ⟨fun id node hnode => (h.placed id node hnode).id_eq, fun _ _ hlink => h.entry hlink⟩

/-- Following finds what a node stands for, and nothing else. A number that no node has is not known. Else, if
nothing is found, a proxy is stuck, or a proxy is met again by the proxies that wait for it. All proxies pass
the check exactly if each of them stands for a term. -/
theorem Consistent.follow_iff_standsFor (h : t.Consistent) :
    (∀ id target, t.follow id = .ok target ↔ t.StandsFor id target) ∧
    (∀ id other, t.follow id = .error (.unknownTerm other) ↔ other = id ∧ t.size ≤ id) ∧
    (∀ id e, id < t.size → t.follow id = .error e →
      (∃ proxy, Node.proxy proxy ∈ t.nodes ∧ t.Stuck proxy ∧ e = .badPointer proxy.name proxy.pointer) ∨
      ∃ proxies last, (∀ proxy ∈ proxies, Node.proxy proxy ∈ t.nodes) ∧ last ∈ proxies ∧
        e = .circularReference ((proxies ++ [last]).map Proxy.name)) ∧
    (t.checkLinks.result = .ok () ↔
      ∀ id proxy, t.node? id = some (.proxy proxy) → ∃ target, t.StandsFor id target) := by
  refine ⟨fun id target => follow_eq_ok_iff_standsFor, fun id other => h.follow_eq_unknown_iff,
    fun id e hid herror => ?_, h.checkLinks_eq_ok_iff_standsFor⟩
  have hnode : t.node? id = some t.nodes[id] := List.getElem?_eq_getElem hid
  exact h.error_of_follow hnode herror

namespace Sample

/-- Two proxies that wait for each other, one that leads to a leaf through another one, and one that is lost. -/
def tangled : Terminology := ofForest [
  .proxy ⟨"first"⟩ (pointer ["second"]) ∅,
  .proxy ⟨"second"⟩ (pointer ["first"]) ∅,
  .term ⟨"tree"⟩ (Traits.ofSettings ⟨"tree"⟩ ∅) [.term ⟨"leaf"⟩ (Traits.ofSettings ⟨"leaf"⟩ ∅) []],
  .proxy ⟨"way"⟩ (pointer ["detour", "leaf"]) ∅,
  .proxy ⟨"detour"⟩ (pointer ["tree"]) ∅,
  .proxy ⟨"lost"⟩ (pointer ["way", "twig"]) ∅]

/-- The way leads to the leaf. The first proxy stands for nothing and is refused as it is met again, the last one
is stuck, and there are no more. -/
theorem follow_of_tangled : tangled.Consistent ∧ tangled.follow 4 = .ok 3 ∧
    (∀ target, ¬ tangled.StandsFor 0 target) ∧ (∃ proxies last, last ∈ proxies ∧
      tangled.follow 0 = .error (.circularReference ((proxies ++ [last]).map Proxy.name))) ∧
    tangled.follow 7 = .error (.unknownTerm 7) ∧ tangled.checkLinks.result ≠ .ok () := by
  have h := (arranged_ofForest _ : tangled.Arranged).consistent
  obtain ⟨hok, hunknown, hrefused, hcheck⟩ := h.follow_iff_standsFor
  have htree : tangled.Goes none [⟨"tree"⟩] (some 2) := .down rfl (.term rfl) .stay
  have hdetour : tangled.StandsFor 5 2 := .proxy rfl nofun htree
  have hway : tangled.Goes none [⟨"detour"⟩, ⟨"leaf"⟩] (some 3) :=
    .down rfl hdetour (.down rfl (.term rfl) .stay)
  have hcircle : tangled.follow 0 = .error (.circularReference [⟨"first"⟩, ⟨"second"⟩, ⟨"first"⟩]) := by
    decide +kernel
  have hnothing : ∀ target, ¬ tangled.StandsFor 0 target := by
    intro target hstands
    cases hcircle.symm.trans ((hok 0 target).2 hstands)
  refine ⟨h, (hok 4 3).2 (.proxy rfl nofun hway), hnothing, ?_, (hunknown 7 7).2 ⟨rfl, by decide +kernel⟩, ?_⟩
  · rcases hrefused 0 _ (by decide +kernel) hcircle with ⟨_, -, -, he⟩ | ⟨proxies, last, -, hlast, he⟩
    · cases he
    · exact ⟨proxies, last, hlast, he ▸ hcircle⟩
  · intro hpasses
    obtain ⟨target, hstands⟩ := hcheck.1 hpasses 0 _ rfl
    exact hnothing target hstands

end Sample

end TermAtlas.Terminology
