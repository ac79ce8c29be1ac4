import TermAtlas.Proofs.Query
import TermAtlas.Proofs.Transparency

/-!
# Mirroring

Looking up reads little of a terminology: the names in a scope, which nodes are proxies, and where those
forward to. Two terminologies in which all this is the same, but for the numbers of the nodes, mirror each
other. It is enough if they do so in a region that looking up does not leave: the names found in a scope of
the region lead to nodes of the region, and its proxies have their siblings there.

Then a node of the region stands for corresponding terms, or for none for the same reason; pointers and
indexed pointers lead to the same places; and if nothing is outside the region, checking all proxies gives
and records the same.

## What is proved

* `Mirrors.followWithin_eq` — following a node, by the recursion of following.
* `Mirrors.checkLinks_eq` — checking all nodes.
* `Mirrors.locate_eq` — going down along a pointer.
* `Mirrors.spanWithin_eq`, `Mirrors.queryTexts_eq` — what a node spans, and the texts of an indexed pointer.
-/

namespace TermAtlas

/-! ### Numbers for numbers -/

/-- The link with its number replaced. -/
def Link.renumber (ρ : Nat → Nat) (link : Link) : Link := { link with node := ρ link.node }

theorem named_renumber (ρ : Nat → Nat) (link : Link) : Named.name (link.renumber ρ) = Named.name link := rfl

/-- The term with all numbers in it replaced. -/
def Term.renumber (ρ : Nat → Nat) (term : Term) : Term :=
  { term with
    id := ρ term.id
    parent := term.parent.map ρ
    children := term.children.map (Link.renumber ρ) }

/-- The proxy with all numbers in it replaced. -/
def Proxy.renumber (ρ : Nat → Nat) (proxy : Proxy) : Proxy :=
  { proxy with id := ρ proxy.id, parent := proxy.parent.map ρ }

/-- The node with all numbers in it replaced. -/
def Node.renumber (ρ : Nat → Nat) : Node → Node
  | term t => term (t.renumber ρ)
  | proxy p => proxy (p.renumber ρ)

theorem map_renumber_id (links : List Link) : links.map (Link.renumber fun id => id) = links :=
  List.map_id _

/-- The same node as far as looking up goes, with all numbers replaced. -/
inductive Node.Mirrors (ρ : Nat → Nat) : Node → Node → Prop where
  /-- A term of the same name with corresponding children. -/
  | term {term term' : Term} : term'.name = term.name →
      term'.children = term.children.map (Link.renumber ρ) → Mirrors ρ (.term term) (.term term')
  /-- A proxy of the same name and pointer with corresponding siblings. -/
  | proxy {proxy proxy' : Proxy} : proxy'.id = ρ proxy.id → proxy'.name = proxy.name →
      proxy'.parent = proxy.parent.map ρ → proxy'.pointer = proxy.pointer →
      Mirrors ρ (.proxy proxy) (.proxy proxy')

theorem Node.mirrors_renumber (ρ : Nat → Nat) (node : Node) : node.Mirrors ρ (node.renumber ρ) := by
  cases node with
  | term term => exact .term rfl rfl
  | proxy proxy => exact .proxy rfl rfl rfl rfl

theorem Node.mirrors_self (node : Node) : node.Mirrors (fun id => id) node := by
  cases node with
  | term term => exact .term rfl (map_renumber_id _).symm
  | proxy proxy => exact .proxy rfl rfl Option.map_id'.symm rfl

theorem Node.Mirrors.name_eq {ρ : Nat → Nat} {node node' : Node} (h : node.Mirrors ρ node') :
    node'.name = node.name := by
  cases h with
  | term hname _ => exact hname
  | proxy _ hname _ _ => exact hname

namespace Terminology

/-- The scopes of `region` and their nodes look the same in `t` and in `t'`, with numbers replaced by
`ρ`, and looking up does not leave the region. -/
structure Mirrors (t : Terminology) (ρ : Nat → Nat) (region : Option Nat → Prop) (t' : Terminology) :
    Prop where
  /-- Each node looks the same. -/
  node : ∀ id, region (some id) → Option.Rel (Node.Mirrors ρ) (t.node? id) (t'.node? (ρ id))
  /-- Numbers without a node are not replaced. -/
  missing : ∀ id, region (some id) → t.node? id = none → ρ id = id
  /-- The same roots are found. -/
  root : region none → ∀ name, t'.child? none name = (t.child? none name).map ρ
  /-- What is found in the region is in the region. -/
  below : ∀ scope name next, region scope → t.child? scope name = some next → region (some next)
  /-- So are the siblings of its proxies. -/
  above : ∀ id proxy, region (some id) → t.node? id = some (.proxy proxy) → region proxy.parent
  /-- Different nodes keep different numbers. -/
  injective : ∀ id other, region (some id) → region (some other) → ρ id = ρ other → id = other

variable {t t' : Terminology} {ρ : Nat → Nat} {region : Option Nat → Prop} {scope : Option Nat} {id : Nat}
  {inProgress : List Nat}

/-- Terminologies mirror each other under the same numbers if each node looks the same and the same roots
are found. -/
theorem mirrors_of_same (hnode : ∀ id, Option.Rel (Node.Mirrors fun id => id) (t.node? id) (t'.node? id))
    (hroot : ∀ name, t'.child? none name = t.child? none name) :
    t.Mirrors (fun id => id) (fun _ => True) t' where
  node id _ := hnode id
  missing _ _ _ := rfl
  root _ name := by rw [hroot name, Option.map_id']
  below _ _ _ _ _ := trivial
  above _ _ _ _ := trivial
  injective _ _ _ _ heq := heq

/-! ### Looking up -/

theorem Mirrors.node?_eq_none (h : t.Mirrors ρ region t') (hid : region (some id))
    (hnode : t.node? id = none) : t'.node? (ρ id) = none := by
  have hrel := h.node id hid
  rw [hnode] at hrel
  cases hnode' : t'.node? (ρ id) with
  | none => rfl
  | some node' =>
    rw [hnode'] at hrel
    cases hrel

theorem Mirrors.exists_node? (h : t.Mirrors ρ region t') (hid : region (some id)) {node : Node}
    (hnode : t.node? id = some node) : ∃ node', t'.node? (ρ id) = some node' ∧ node.Mirrors ρ node' := by
  have hrel := h.node id hid
  rw [hnode] at hrel
  cases hnode' : t'.node? (ρ id) with
  | none =>
    rw [hnode'] at hrel
    cases hrel
  | some node' =>
    rw [hnode'] at hrel
    cases hrel with
    | some hmirrors => exact ⟨node', rfl, hmirrors⟩

theorem Mirrors.exists_term? (h : t.Mirrors ρ region t') (hid : region (some id)) {term : Term}
    (hterm : t.term? id = some term) : ∃ term', t'.term? (ρ id) = some term' ∧
      term'.name = term.name ∧ term'.children = term.children.map (Link.renumber ρ) := by
  obtain ⟨node', hnode', hmirrors⟩ := h.exists_node? hid (node?_of_term? hterm)
  cases hmirrors with
  | term hname hchildren => exact ⟨_, term?_of_node? hnode', hname, hchildren⟩

theorem Mirrors.exists_proxy (h : t.Mirrors ρ region t') (hid : region (some id)) {proxy : Proxy}
    (hnode : t.node? id = some (.proxy proxy)) : ∃ proxy', t'.node? (ρ id) = some (.proxy proxy') ∧
      proxy'.id = ρ proxy.id ∧ proxy'.name = proxy.name ∧ proxy'.parent = proxy.parent.map ρ ∧
      proxy'.pointer = proxy.pointer := by
  obtain ⟨node', hnode', hmirrors⟩ := h.exists_node? hid hnode
  cases hmirrors with
  | proxy hself hname hparent hpointer => exact ⟨_, hnode', hself, hname, hparent, hpointer⟩

theorem Mirrors.child?_eq (h : t.Mirrors ρ region t') (hscope : region scope) (name : Name) :
    t'.child? (scope.map ρ) name = (t.child? scope name).map ρ := by
  cases scope with
  | none => exact h.root hscope name
  | some id =>
    have hchildren : t'.scope (some (ρ id)) = (t.scope (some id)).map (Link.renumber ρ) := by
      rw [scope, scope, term?, term?]
      cases hnode : t.node? id with
      | none =>
        rw [h.node?_eq_none hscope hnode]
        rfl
      | some node =>
        obtain ⟨node', hnode', hmirrors⟩ := h.exists_node? hscope hnode
        rw [hnode']
        cases hmirrors with
        | term _ hchildren => exact hchildren
        | proxy _ _ _ _ => rfl
    rw [Option.map_some, child?, child?, hchildren, Roster.find?_map (named_renumber ρ), Option.map_map,
      Option.map_map]
    rfl

theorem Mirrors.names_eq (h : t.Mirrors ρ region t') (hprogress : ∀ other ∈ inProgress, region (some other)) :
    ((inProgress.map ρ).filterMap t'.node?).map Node.name =
      (inProgress.filterMap t.node?).map Node.name := by
  rw [List.map_filterMap, List.map_filterMap, List.filterMap_map]
  refine List.filterMap_congr fun other hother => ?_
  rw [Function.comp_apply]
  cases hnode : t.node? other with
  | none => rw [h.node?_eq_none (hprogress other hother) hnode]
  | some node =>
    obtain ⟨node', hnode', hmirrors⟩ := h.exists_node? (hprogress other hother) hnode
    rw [hnode', Option.map_some, Option.map_some, hmirrors.name_eq]

theorem Mirrors.mem_map_iff (h : t.Mirrors ρ region t') (hid : region (some id))
    (hprogress : ∀ other ∈ inProgress, region (some other)) :
    ρ id ∈ inProgress.map ρ ↔ id ∈ inProgress := by
  constructor
  · intro hmem
    obtain ⟨other, hother, heq⟩ := List.mem_map.1 hmem
    exact h.injective other id (hprogress other hother) hid heq ▸ hother
  · exact List.mem_map_of_mem

theorem region_of_mem_append (hprogress : ∀ other ∈ inProgress, region (some other))
    (hid : region (some id)) : ∀ other ∈ inProgress ++ [id], region (some other) := by
  intro other hother
  rcases List.mem_append.1 hother with hother | hother
  · exact hprogress other hother
  · exact List.mem_singleton.1 hother ▸ hid

/-! ### Following -/

/-- Going down does not depend on numbers if no step does. -/
theorem descend_renumber {step step' : Option Nat → Name → Except Error Nat} {first : Name}
    {rest : List Name}
    (hstep : ∀ scope name, region scope → step' (scope.map ρ) name = (step scope name).map ρ ∧
      ∀ stop, step scope name = .ok stop → region (some stop)) (hscope : region scope) :
    descend step' (scope.map ρ) first rest = (descend step scope first rest).map ρ ∧
      ∀ target, descend step scope first rest = .ok target → region (some target) := by
  induction rest generalizing scope first with
  | nil =>
    have hone : ∀ step : Option Nat → Name → Except Error Nat, ∀ scope,
        descend step scope first [] = step scope first := by
      intro step scope
      cases h : step scope first <;> simp [descend, h, bind, Except.bind, pure, Except.pure]
    rw [hone, hone]
    exact hstep scope first hscope
  | cons name rest ih =>
    obtain ⟨hfirst, hregion⟩ := hstep scope first hscope
    rw [descend_cons, descend_cons, hfirst]
    cases hstop : step scope first with
    | error error => exact ⟨rfl, by rintro _ ⟨⟩⟩
    | ok stop => exact ih (hregion stop hstop)

/-- Numbers do not matter to what a node stands for, nor to why it stands for nothing. -/
theorem Mirrors.followWithin_eq (h : t.Mirrors ρ region t') (hid : region (some id))
    (hprogress : ∀ other ∈ inProgress, region (some other)) :
    t'.followWithin (inProgress.map ρ) (ρ id) = (t.followWithin inProgress id).map ρ ∧
      ∀ target, t.followWithin inProgress id = .ok target → region (some target) := by
  induction inProgress, id using followWithin.induct t with
  | case1 inProgress id hnode =>
    rw [followWithin_of_none hnode, followWithin_of_none (h.node?_eq_none hid hnode), h.missing id hid hnode]
    exact ⟨rfl, by rintro _ ⟨⟩⟩
  | case2 inProgress id term hnode =>
    obtain ⟨term', hterm', -⟩ := h.exists_term? hid (term?_of_node? hnode)
    rw [followWithin_term hterm', followWithin_term (term?_of_node? hnode)]
    exact ⟨rfl, fun target htarget => Except.ok.inj htarget ▸ hid⟩
  | case3 inProgress id proxy hnode hseen =>
    obtain ⟨proxy', hnode', -, hname, -⟩ := h.exists_proxy hid hnode
    rw [followWithin_of_proxy hnode', followWithin_of_proxy hnode, if_pos hseen,
      if_pos ((h.mem_map_iff hid hprogress).2 hseen), h.names_eq hprogress, hname]
    exact ⟨rfl, by rintro _ ⟨⟩⟩
  | case4 inProgress id proxy hnode hnew hsegments =>
    obtain ⟨proxy', hnode', -, hname, -, hpointer⟩ := h.exists_proxy hid hnode
    rw [followWithin_of_proxy hnode', followWithin_of_proxy hnode, if_neg hnew,
      if_neg (mt (h.mem_map_iff hid hprogress).1 hnew), hname, hpointer, hsegments]
    exact ⟨rfl, by rintro _ ⟨⟩⟩
  | case5 inProgress id proxy hnode hnew first rest hsegments ih =>
    obtain ⟨proxy', hnode', -, hname, hparent, hpointer⟩ := h.exists_proxy hid hnode
    rw [followWithin_of_proxy hnode', followWithin_of_proxy hnode, if_neg hnew,
      if_neg (mt (h.mem_map_iff hid hprogress).1 hnew), hname, hpointer, hsegments, hparent]
    refine descend_renumber (fun scope name hscope => ?_) (h.above id proxy hid hnode)
    rw [h.child?_eq hscope]
    cases hchild : t.child? scope name with
    | none => exact ⟨rfl, by rintro _ ⟨⟩⟩
    | some next =>
      have hstep := ih next (h.below scope name next hscope hchild) (region_of_mem_append hprogress hid)
      rwa [List.map_append] at hstep

theorem Mirrors.follow_eq (h : t.Mirrors ρ region t') (hid : region (some id)) :
    t'.follow (ρ id) = (t.follow id).map ρ ∧ ∀ target, t.follow id = .ok target → region (some target) := by
  have hnone : ∀ other ∈ ([] : List Nat), region (some other) := List.forall_mem_nil _
  exact h.followWithin_eq hid hnone

/-- A node stands for a term as soon as following it ends. -/
theorem exists_resolveProxy_iff : (∃ term, t.resolveProxy id = .ok term) ↔
    ∃ target, t.follow id = .ok target := by
  simp only [resolveProxy_eq_ok_iff]
  constructor
  · rintro ⟨term, target, hfollow, -⟩
    exact ⟨target, hfollow⟩
  · rintro ⟨target, hfollow⟩
    obtain ⟨term, hterm⟩ := exists_term_of_followWithin hfollow
    exact ⟨term, target, hfollow, hterm⟩

/-- A node stands for a term in both terminologies or in neither. -/
theorem Mirrors.resolves_iff (h : t.Mirrors ρ region t') (hid : region (some id)) :
    (∃ term, t'.resolveProxy (ρ id) = .ok term) ↔ ∃ term, t.resolveProxy id = .ok term := by
  rw [exists_resolveProxy_iff, exists_resolveProxy_iff, (h.follow_eq hid).1]
  cases t.follow id <;> simp [Except.map]

/-- What a node stands for has the same name, or there is nothing for the same reason. -/
theorem Mirrors.map_name_resolveProxy (h : t.Mirrors ρ region t') (hid : region (some id)) :
    (t'.resolveProxy (ρ id)).map Term.name = (t.resolveProxy id).map Term.name := by
  obtain ⟨hfollow, hregion⟩ := h.follow_eq hid
  rw [resolveProxy, resolveProxy, hfollow]
  cases htarget : t.follow id with
  | error error => rfl
  | ok target =>
    obtain ⟨term, hterm⟩ := exists_term_of_followWithin htarget
    obtain ⟨term', hterm', hname, -⟩ := h.exists_term? (hregion target htarget) hterm
    simp only [Except.map, hterm, hterm', hname]

/-- Checking a proxy reads no more than the name of the term that it stands for. -/
theorem checkLink_proxy (t : Terminology) (proxy : Proxy) : t.checkLink (.proxy proxy) =
    (Logged.ofExcept ((t.resolveProxy proxy.id).map Term.name) >>= fun name =>
      Logged.note (.forwards proxy.name name)) := by
  rw [checkLink]
  cases t.resolveProxy proxy.id <;> rfl

/-- Checking a node gives and records the same. -/
theorem Mirrors.checkLink_eq (h : t.Mirrors ρ region t') {node node' : Node}
    (hregion : region (some node.id)) (hnode : node.Mirrors ρ node') :
    t'.checkLink node' = t.checkLink node := by
  cases hnode with
  | term _ _ => rfl
  | @proxy proxy proxy' hself hname _ _ =>
    have hresolve : (t'.resolveProxy (ρ proxy.id)).map Term.name =
        (t.resolveProxy proxy.id).map Term.name := h.map_name_resolveProxy hregion
    rw [checkLink_proxy, checkLink_proxy, hself, hname, hresolve]

/-- Checking all nodes gives and records the same if they look the same in order. -/
theorem Mirrors.checkLinks_eq (h : t.Mirrors ρ (fun _ => True) t')
    (hnodes : List.Forall₂ (Node.Mirrors ρ) t.nodes t'.nodes) : t'.checkLinks = t.checkLinks := by
  have htraverse : ∀ nodes nodes' : List Node, List.Forall₂ (Node.Mirrors ρ) nodes nodes' →
      Logged.traverse t'.checkLink nodes' = Logged.traverse t.checkLink nodes := by
    intro nodes nodes' hall
    induction hall with
    | nil => rfl
    | cons hnode _ ih => rw [Logged.traverse, Logged.traverse, h.checkLink_eq trivial hnode, ih]
  rw [checkLinks, checkLinks, htraverse _ _ hnodes]

/-! ### Going down along a pointer -/

/-- Numbers do not matter to where a pointer leads, nor to why it leads nowhere. -/
theorem Mirrors.locate_eq (h : t.Mirrors ρ region t') (hscope : region scope) (p : Pointer) :
    t'.locate (scope.map ρ) p = (t.locate scope p).map ρ ∧
      ∀ target, t.locate scope p = .ok target → region (some target) := by
  rw [locate, locate]
  cases hsegments : p.segments with
  | nil => exact ⟨rfl, by rintro _ ⟨⟩⟩
  | cons first rest =>
    refine descend_renumber (fun scope name hscope => ?_) hscope
    rw [h.child?_eq hscope]
    cases hchild : t.child? scope name with
    | none => exact ⟨rfl, by rintro _ ⟨⟩⟩
    | some next => exact h.follow_eq (h.below scope name next hscope hchild)

/-! ### Indexed pointers -/

/-- Numbers do not matter to what names span if they do not matter to what a node spans. -/
theorem Mirrors.spanAlong_eq (h : t.Mirrors ρ region t') (hroot : region none)
    {span span' : Nat → Option (List Nat)}
    (hspan : ∀ next, region (some next) → span' (ρ next) = (span next).map (List.map ρ) ∧
      ∀ steps, span next = some steps → ∀ stop ∈ steps, region (some stop))
    (hscope : region scope) (names : List Name) :
    t'.spanAlong span' (scope.map ρ) names = (t.spanAlong span scope names).map (List.map ρ) ∧
      ∀ steps, t.spanAlong span scope names = some steps → ∀ stop ∈ steps, region (some stop) := by
  induction names generalizing scope with
  | nil =>
    refine ⟨rfl, fun steps hsteps => ?_⟩
    rw [← Option.some.inj hsteps]
    exact List.forall_mem_nil _
  | cons name rest ih =>
    rw [spanAlong_cons, spanAlong_cons, h.child?_eq hscope]
    cases hchild : t.child? scope name with
    | none => exact ⟨rfl, by rintro _ ⟨⟩⟩
    | some next =>
      obtain ⟨hfirst, hregion⟩ := hspan next (h.below scope name next hscope hchild)
      rw [Option.map_some, Option.bind_some, Option.bind_some, hfirst]
      cases hsteps : span next with
      | none => exact ⟨rfl, by rintro _ ⟨⟩⟩
      | some steps =>
        have hlast : region steps.getLast? := by
          cases hstop : steps.getLast? with
          | none => exact hroot
          | some stop => exact hregion steps hsteps stop (List.mem_of_getLast? hstop)
        obtain ⟨hmore, hregionMore⟩ := ih hlast
        rw [Option.map_some, Option.bind_some, Option.bind_some, List.getLast?_map, hmore]
        cases hfound : t.spanAlong span steps.getLast? rest with
        | none => exact ⟨rfl, by rintro _ ⟨⟩⟩
        | some more =>
          refine ⟨by simp, fun longer hlonger stop hstop => ?_⟩
          rw [← Option.some.inj hlonger, List.mem_append] at hstop
          exact hstop.elim (hregion steps hsteps stop) (hregionMore more hfound stop)

/-- Numbers do not matter to what a node spans. -/
theorem Mirrors.spanWithin_eq (h : t.Mirrors ρ region t') (hroot : region none) (hid : region (some id))
    (hprogress : ∀ other ∈ inProgress, region (some other)) :
    t'.spanWithin (inProgress.map ρ) (ρ id) = (t.spanWithin inProgress id).map (List.map ρ) ∧
      ∀ span, t.spanWithin inProgress id = some span → ∀ stop ∈ span, region (some stop) := by
  induction inProgress, id using spanWithin.induct t with
  | case1 inProgress id hnode =>
    rw [spanWithin_of_none hnode, spanWithin_of_none (h.node?_eq_none hid hnode)]
    exact ⟨rfl, by rintro _ ⟨⟩⟩
  | case2 inProgress id term hnode =>
    obtain ⟨term', hterm', -⟩ := h.exists_term? hid (term?_of_node? hnode)
    rw [spanWithin_term hterm', spanWithin_term (term?_of_node? hnode)]
    refine ⟨rfl, fun span hspan stop hstop => ?_⟩
    rw [← Option.some.inj hspan] at hstop
    exact List.mem_singleton.1 hstop ▸ hid
  | case3 inProgress id proxy hnode hseen =>
    obtain ⟨proxy', hnode', -⟩ := h.exists_proxy hid hnode
    rw [spanWithin_of_mem hnode hseen, spanWithin_of_mem hnode' ((h.mem_map_iff hid hprogress).2 hseen)]
    exact ⟨rfl, by rintro _ ⟨⟩⟩
  | case4 inProgress id proxy hnode hnew ih =>
    obtain ⟨proxy', hnode', -, -, hparent, hpointer⟩ := h.exists_proxy hid hnode
    rw [spanWithin_proxy hnode hnew, spanWithin_proxy hnode' (mt (h.mem_map_iff hid hprogress).1 hnew),
      hpointer, hparent]
    refine h.spanAlong_eq hroot (fun next hnext => ?_) (h.above id proxy hid hnode) _
    have hsame := ih next hnext (region_of_mem_append hprogress hid)
    rwa [List.map_append, List.map_singleton] at hsame

/-- What a step adds to a query reads no more of a term than its text. -/
theorem stepTexts_eq_mapM (t : Terminology) (index : Option UInt64) (span : List Nat) :
    t.stepTexts index span = span.mapM fun id =>
      ((t.term? id).map Term.stepText).bind fun text =>
        match index with
        | some index => if span.getLast? = some id then (position index).map (text ++ ·) else some text
        | none => some text := by
  rw [stepTexts]
  congr 1
  funext id
  cases t.term? id <;> rfl

/-- The texts of a step do not depend on numbers if the text of no term does. -/
theorem Mirrors.stepTexts_eq (h : t.Mirrors ρ region t')
    (htext : ∀ id, region (some id) →
      (t'.term? (ρ id)).map Term.stepText = (t.term? id).map Term.stepText)
    {span : List Nat} (hspan : ∀ stop ∈ span, region (some stop)) (index : Option UInt64) :
    t'.stepTexts index (span.map ρ) = t.stepTexts index span := by
  have hlast : ∀ id ∈ span, (span.map ρ).getLast? = some (ρ id) ↔ span.getLast? = some id := by
    intro id hid
    rw [List.getLast?_map, Option.map_eq_some_iff]
    constructor
    · rintro ⟨stop, hstop, heq⟩
      rw [← h.injective stop id (hspan stop (List.mem_of_getLast? hstop)) (hspan id hid) heq, hstop]
    · intro hid
      exact ⟨id, hid, rfl⟩
  rw [stepTexts_eq_mapM, stepTexts_eq_mapM, List.mapM_map]
  ext texts
  rw [mapM_eq_some_iff, mapM_eq_some_iff]
  refine Eq.congr_left (List.map_congr_left fun id hid => ?_)
  simp only [Function.comp_apply, htext id (hspan id hid), hlast id hid]

/-- The texts of an indexed pointer do not depend on numbers if the text of no term does. -/
theorem Mirrors.queryTexts_eq (h : t.Mirrors ρ region t')
    (htext : ∀ id, region (some id) →
      (t'.term? (ρ id)).map Term.stepText = (t.term? id).map Term.stepText)
    (hroot : region none) (hscope : region scope) (steps : List Step) :
    t'.queryTexts (scope.map ρ) steps = t.queryTexts scope steps := by
  -- where there is nothing, closing with rfl would compare what would have come next
  induction steps generalizing scope with
  | nil => rfl
  | cons step rest ih =>
    rw [queryTexts, queryTexts, h.child?_eq hscope]
    cases hchild : t.child? scope step.name with
    | none => simp only [Option.map_none, Option.bind_eq_bind, Option.bind_none]
    | some id =>
      have hid := h.below scope step.name id hscope hchild
      have hnone : ∀ other ∈ ([] : List Nat), region (some other) := List.forall_mem_nil _
      obtain ⟨hspan, hregion⟩ := h.spanWithin_eq hroot hid hnone
      rw [List.map_nil] at hspan
      simp only [Option.map_some, Option.bind_eq_bind, Option.bind_some, span, hspan]
      cases hfound : t.spanWithin [] id with
      | none => simp only [Option.map_none, Option.bind_none]
      | some span =>
        simp only [Option.map_some, Option.bind_some, List.getLast?_map,
          h.stepTexts_eq htext (hregion span hfound)]
        cases hlast : span.getLast? with
        | none => simp only [Option.map_none, Option.bind_none]
        | some last =>
          have hmore := ih (hregion span hfound last (List.mem_of_getLast? hlast))
          rw [Option.map_some] at hmore
          simp only [Option.map_some, Option.bind_some, hmore]

end Terminology

end TermAtlas
