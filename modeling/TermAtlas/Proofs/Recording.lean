import TermAtlas.Proofs.BuildInPlace
import TermAtlas.Proofs.InPlace

/-!
# What is recorded

A build goes through stages, and what it records shows them one after the other. First all nodes are
made, and while a node is made it is also recorded how its declaration was resolved and what was odd
about its settings. Then each proxy is said to lead somewhere, then each term is said to be somewhere,
and in the end the nodes are counted. In each of the first three stages the nodes come in the order of
a walk: nodes are made depth first, and are numbered as they are made; the check goes by the numbers;
and the loop that derives paths is depth first again.

## What is proved

* `Logged.forall_log_bind`, `Logged.log_traverse` — what a sequence and a traversal record.
* `Declaration.stage_of_resolve`, `Declaration.makings_expandWithin` — what is recorded of one declaration.
* `Terminology.forall₂_log_checkLinks` — what is recorded of proxies.
* `Registry.log_of_build` — what a build records, from beginning to end.
-/

namespace TermAtlas

/-! ### Stages -/

namespace Event

/-- What is going on when something is recorded. -/
inductive Stage where
  /-- A declaration is resolved. -/
  | resolving
  /-- The settings of a term are read. -/
  | reading
  /-- A node is made. -/
  | making
  /-- A proxy is checked. -/
  | linking
  /-- The paths of a term are derived. -/
  | locating
  /-- A tree is attached to a terminology that is there. -/
  | grafting
  /-- A terminology is complete. -/
  | completing
  deriving DecidableEq

/-- The stage at which an event is recorded. -/
def stage : Event → Stage
  | merged .. | referenceIgnored .. | refers .. | resolving .. => .resolving
  | attributeIgnored .. | pathWithoutAttribute .. | pathIgnored .. => .reading
  | builtTerm .. | builtProxy .. => .making
  | forwards .. => .linking
  | located .. => .locating
  | grafted .. => .grafting
  | built .. => .completing

/-- The records of nodes being made. -/
def makings (log : List Event) : List Event := log.filter fun event => event.stage = .making

theorem makings_append (log more : List Event) : makings (log ++ more) = makings log ++ makings more :=
  List.filter_append ..

theorem makings_of_stage {log : List Event} {other : Stage} (h : ∀ event ∈ log, event.stage = other)
    (hne : other ≠ .making) : makings log = [] :=
  List.filter_eq_nil_iff.2 fun event hevent => by simpa [h event hevent] using hne

/-- Nodes and whole terminologies are worth mentioning, and the rest is detail. -/
theorem level_of_stage (event : Event) :
    (event.stage ∈ [.making, .completing] → event.level = .info) ∧
      (event.stage ∈ [.linking, .locating] → event.level = .debug) := by
  cases event <;> simp [stage, level]

end Event

namespace Node

/-- What is recorded when a node is made. -/
def record : Node → Event
  | term t => .builtTerm t.name
  | proxy p => .builtProxy p.name p.pointer

/-- The node as a proxy, unless it is a term. -/
def proxy? : Node → Option Proxy
  | term _ => none
  | proxy p => some p

end Node

/-! ### Sequences and traversals -/

namespace Logged

variable {α β : Type} {x : Logged α} {f : α → Logged β} {p : Event → Prop}

/-- What is true of all that two steps record is true of all that is recorded. -/
theorem forall_log_bind (hx : ∀ event ∈ x.log, p event) (hf : ∀ a, ∀ event ∈ (f a).log, p event) :
    ∀ event ∈ (x >>= f).log, p event := by
  cases hresult : x.result with
  | error e =>
    rw [bind_of_error hresult]
    exact hx
  | ok a =>
    rw [bind_of_ok hresult]
    exact fun event hevent => (List.mem_append.1 hevent).elim (hx event) (hf a event)

/-- What is true of all that is recorded of each item is true of all that a traversal records. -/
theorem forall_log_traverse {items : List α} (hf : ∀ a ∈ items, ∀ event ∈ (f a).log, p event) :
    ∀ event ∈ (traverse f items).log, p event := by
  induction items with
  | nil => exact List.forall_mem_nil _
  | cons a rest ih =>
    refine forall_log_bind (hf a List.mem_cons_self) fun b => ?_
    rw [log_map]
    exact ih fun other hother => hf other (List.mem_cons_of_mem _ hother)

/-- A traversal that succeeds records what is recorded of each item. -/
theorem log_traverse {items : List α} {results : List β} (h : (traverse f items).result = .ok results) :
    (traverse f items).log = items.flatMap fun a => (f a).log := by
  induction items generalizing results with
  | nil => rfl
  | cons a rest ih =>
    rw [traverse, result_bind_eq_ok_iff] at h
    obtain ⟨b, hb, hrest⟩ := h
    obtain ⟨others, hothers, -⟩ := result_map_eq_ok_iff.1 hrest
    rw [traverse, bind_of_ok hb, log_map, ih hothers, List.flatMap_cons]

end Logged

/-! ### One declaration -/

namespace Declaration

variable {registry : Option Registry} {fresh : List Identity} {names : List Name} {d : Declaration}
  {visited : List Declaration} {e : Expansion}

theorem stage_of_chainFrom :
    ∀ event ∈ (chainFrom registry visited d).log, event.stage = .resolving := by
  fun_induction chainFrom registry visited d with
  | case1 => exact List.forall_mem_nil _
  | case2 => exact List.forall_mem_singleton.2 rfl
  | case3 => exact List.forall_mem_nil _
  | case4 => exact List.forall_mem_nil _
  | case5 => exact List.forall_mem_nil _
  | case6 _ _ _ _ _ _ _ _ _ _ _ ih => exact Logged.forall_log_bind (List.forall_mem_singleton.2 rfl) fun _ => ih

theorem stage_of_absorbEvents (d : Declaration) (chain : List Declaration) :
    ∀ event ∈ absorbEvents d chain, event.stage = .resolving := by
  induction chain generalizing d with
  | nil => exact List.forall_mem_nil _
  | cons target rest ih => exact List.forall_mem_cons.2 ⟨rfl, ih _⟩

/-- Resolving a declaration records nothing else than that. -/
theorem stage_of_resolve (d : Declaration) : ∀ event ∈ (d.resolve registry).log, event.stage = .resolving := by
  unfold resolve
  refine Logged.forall_log_bind stage_of_chainFrom fun chain => ?_
  split
  · refine Logged.forall_log_bind (List.forall_mem_singleton.2 rfl) fun _ => ?_
    exact Logged.forall_log_bind (stage_of_absorbEvents d chain) fun _ => List.forall_mem_nil _
  · exact Logged.forall_log_bind (stage_of_absorbEvents d chain) fun _ => List.forall_mem_nil _

theorem stage_of_attributeWarnings (name : Name) (value : Option Setting.Value) :
    ∀ event ∈ Traits.attributeWarnings name value, event.stage = .reading := by
  intro event hevent
  rw [Traits.attributeWarnings] at hevent
  split at hevent
  · obtain ⟨⟨label, value⟩, -, hentry⟩ := List.mem_filterMap.1 hevent
    dsimp only at hentry
    split at hentry
    · cases hentry
    · obtain rfl := Option.some.inj hentry
      rfl
  · cases hevent

theorem stage_of_pathWarnings (name : Name) (value : Option Setting.Value) :
    ∀ event ∈ Traits.pathWarnings name value, event.stage = .reading := by
  unfold Traits.pathWarnings
  split
  · exact List.forall_mem_nil _
  · exact List.forall_mem_nil _
  · exact List.forall_mem_nil _
  · split
    · split
      · exact List.forall_mem_nil _
      · exact List.forall_mem_singleton.2 rfl
    · exact List.forall_mem_singleton.2 rfl

/-- What is odd about the settings of a term is found when they are read. -/
theorem stage_of_warnings (name : Name) (s : Settings) :
    ∀ event ∈ Traits.warnings name s, event.stage = .reading :=
  fun event hevent => (List.mem_append.1 hevent).elim (stage_of_attributeWarnings name _ event)
    (stage_of_pathWarnings name _ event)

/-- Whatever comes of it, expanding a declaration only records how nodes are made. -/
theorem stage_of_expandWithin : ∀ event ∈ (expandWithin registry fresh names d).log,
    event.stage ∈ [.resolving, .reading, .making] := by
  induction fresh, names, d using expandWithin.induct with
  | case1 fresh names d hfresh ih =>
    rw [expandWithin, dif_pos hfresh]
    refine Logged.forall_log_bind (fun event hevent => by simp [stage_of_resolve d event hevent])
      fun resolved => ?_
    split
    · exact Logged.forall_log_bind (List.forall_mem_singleton.2 (by simp [Event.stage])) fun _ =>
        List.forall_mem_nil _
    · refine Logged.forall_log_bind (List.forall_mem_singleton.2 (by simp [Event.stage])) fun _ => ?_
      refine Logged.forall_log_bind (fun event hevent => ?_) fun _ => ?_
      · simp [stage_of_warnings d.name resolved.settings event hevent]
      · refine Logged.forall_log_bind (Logged.forall_log_traverse fun child _ => ih child) fun _ =>
          List.forall_mem_nil _
  | case2 fresh names d hfresh =>
    rw [expandWithin, dif_neg hfresh]
    exact List.forall_mem_nil _

theorem makings_flatMap {expansion : Declaration → Logged Expansion} {ds : List Declaration}
    {es : List Expansion} (hexpand : ds.map (fun d => (expansion d).result) = es.map Except.ok)
    (hone : ∀ d ∈ ds, ∀ e, (expansion d).result = .ok e → ∀ start above,
      Event.makings (expansion d).log = (e.nodes start above).map Node.record)
    (start : Nat) (above : Option (Nat × XPaths)) :
    Event.makings (ds.flatMap fun d => (expansion d).log) =
      (Expansion.nodesOfAll start above es).map Node.record := by
  induction ds generalizing start es with
  | nil =>
    obtain rfl : es = [] := by simpa using hexpand.symm
    rfl
  | cons d rest ih =>
    obtain ⟨e, others, rfl, he, hrest⟩ := List.map_eq_cons_iff.1 hexpand.symm
    rw [List.flatMap_cons, Event.makings_append, hone d List.mem_cons_self e he.symm start above,
      ih hrest.symm (fun other hother => hone other (List.mem_cons_of_mem _ hother)) (start + e.size),
      Expansion.nodesOfAll, List.map_append]

/-- When a declaration is expanded, one node of its tree after the other is made, in the order in which the tree
is laid out. -/
theorem makings_expandWithin (h : (expandWithin registry fresh names d).result = .ok e) (start : Nat)
    (above : Option (Nat × XPaths)) :
    Event.makings (expandWithin registry fresh names d).log = (e.nodes start above).map Node.record := by
  induction fresh, names, d using expandWithin.induct generalizing e start above with
  | case1 fresh names d hfresh ih =>
    have hresolving : Event.makings (d.resolve registry).log = [] :=
      Event.makings_of_stage (stage_of_resolve d) (by decide)
    have hreading : ∀ s, Event.makings (Logged.notes (Traits.warnings d.name s)).log = [] := fun s =>
      Event.makings_of_stage (stage_of_warnings d.name s) (by decide)
    rw [expandWithin, dif_pos hfresh] at h ⊢
    obtain ⟨resolved, hresolve, h⟩ := Logged.result_bind_eq_ok_iff.1 h
    rw [Logged.bind_of_ok hresolve, Event.makings_append, hresolving, List.nil_append]
    cases hpointer : resolved.settings.pointer? .proxy with
    | some pointer =>
      rw [hpointer] at h
      obtain rfl := Except.ok.inj h
      rfl
    | none =>
      simp only [hpointer, Logged.result_bind_eq_ok_iff, Logged.result_pure, Except.ok.injEq] at h
      obtain ⟨-, -, -, -, children, hchildren, rfl⟩ := h
      have hbelow := makings_flatMap (Logged.result_traverse_eq_ok_iff.1 hchildren)
        (fun child _ e he start above => ih child he start above) (start + 1)
        (some (start, XPaths.below (above.map (·.2)) (Traits.ofSettings d.name resolved.settings)))
      dsimp only
      rw [Logged.bind_of_ok (Logged.result_note _), Logged.bind_of_ok (Logged.result_notes _),
        Logged.bind_of_ok hchildren, Event.makings_append, Event.makings_append, Event.makings_append,
        Logged.log_traverse hchildren, hbelow, hreading, Logged.log_pure, Expansion.nodes, List.map_cons]
      exact congrArg _ (List.append_nil _)
  | case2 fresh names d hfresh =>
    rw [expandWithin, dif_neg hfresh] at h
    cases h

end Declaration

/-! ### All declarations -/

namespace Terminology

variable {t : Terminology}

/-- The nodes, looked up in the order of their numbers. -/
theorem filterMap_node?_range (t : Terminology) : (List.range t.size).filterMap t.node? = t.nodes := by
  have hmap : (List.range t.size).map t.node? = t.nodes.map some :=
    List.ext_getElem (by simp [size]) fun id hid hid' => by simp [node?]
  calc (List.range t.size).filterMap t.node?
      = ((List.range t.size).map t.node?).filterMap id := by
        rw [List.filterMap_map, Function.id_comp]
    _ = (t.nodes.map some).filterMap id := by rw [hmap]
    _ = t.nodes := by simp [List.filterMap_map]

theorem forall₂_log_checkLink {nodes : List Node} (h : ∀ node ∈ nodes, (t.checkLink node).result = .ok ()) :
    List.Forall₂ (fun (proxy : Proxy) event => ∃ target, t.resolveProxy proxy.id = .ok target ∧
      event = .forwards proxy.name target.name) (nodes.filterMap Node.proxy?)
      (nodes.flatMap fun node => (t.checkLink node).log) := by
  induction nodes with
  | nil => exact .nil
  | cons node rest ih =>
    have hrest := ih fun other hother => h other (List.mem_cons_of_mem _ hother)
    cases node with
    | term term => exact hrest
    | proxy proxy =>
      obtain ⟨target, htarget⟩ := checkLink_eq_ok_iff.1 (h _ List.mem_cons_self) proxy rfl
      have hlog : (t.checkLink (.proxy proxy)).log = [.forwards proxy.name target.name] := by
        rw [checkLink, htarget]
        rfl
      rw [List.flatMap_cons, hlog]
      exact .cons ⟨target, htarget, rfl⟩ hrest

/-- A check that passes records of each proxy where it leads, in the order of the numbers. -/
theorem forall₂_log_checkLinks (h : t.checkLinks.result = .ok ()) :
    List.Forall₂ (fun (proxy : Proxy) event => ∃ target, t.resolveProxy proxy.id = .ok target ∧
      event = .forwards proxy.name target.name) (t.nodes.filterMap Node.proxy?) t.checkLinks.log := by
  obtain ⟨units, hunits, -⟩ := Logged.result_bind_eq_ok_iff.1 h
  have hlog : t.checkLinks.log = t.nodes.flatMap fun node => (t.checkLink node).log := by
    rw [checkLinks, Logged.bind_of_ok hunits, Logged.log_traverse hunits]
    exact List.append_nil _
  rw [hlog]
  refine forall₂_log_checkLink fun node hnode => checkLink_eq_ok_iff.2 ?_
  rintro proxy rfl
  exact checkLinks_eq_ok_iff.1 h proxy hnode

end Terminology

namespace Registry

variable {r : Registry} {t : Terminology}

theorem build_eq (r : Registry) : r.build = (do
    let forest ← Logged.traverse (fun d => d.expand (some r)) r.roots
    let t := Terminology.ofForest forest
    t.checkLinks
    ⟨t.locations (List.range t.size) ++ [.built t.roots.length t.size], .ok t⟩) := by
  rw [build, Terminology.build]
  simp only [bind_assoc]
  rfl

/-- What a build records that succeeds. All nodes are made first, in the order of a walk; what else is recorded
on the way has to do with resolving declarations and reading settings. Next it is said of each proxy for which
term it stands, and then of each term where it is, again in the order of a walk; and last the roots and the
nodes are counted. Built in place, where these orders are those of a recursion, of a scan and of a loop with a
stack, a registry records the same. -/
theorem log_of_build (h : r.build.result = .ok t) :
    (∃ made linked,
      r.build.log = made ++ linked ++
        (t.walk.filterMap t.term?).map (fun term => .located term.name term.paths.constrained) ++
        [.built t.roots.length t.size] ∧
      (∀ event ∈ made, event.stage ∈ [.resolving, .reading, .making]) ∧
      Event.makings made = (t.walk.filterMap t.node?).map Node.record ∧
      List.Forall₂ (fun (proxy : Proxy) event => ∃ target, t.resolveProxy proxy.id = .ok target ∧
        event = .forwards proxy.name target.name) ((t.walk.filterMap t.node?).filterMap Node.proxy?) linked) ∧
    t.walk = List.range t.size ∧
    (∀ event ∈ r.build.log, (event.stage ∈ [.making, .completing] → event.level = .info) ∧
      (event.stage ∈ [.linking, .locating] → event.level = .debug)) ∧
    (r.Apart → r.buildInPlace = Part.some r.build) := by
  obtain ⟨-, -, -, -, -, -, hwalk⟩ := forest_of_build h
  have hnodes : t.walk.filterMap t.node? = t.nodes := by rw [hwalk, t.filterMap_node?_range]
  refine ⟨?_, hwalk, fun event _ => event.level_of_stage, fun hapart => hapart.buildInPlace_eq⟩
  rw [hnodes, hwalk]
  rw [build_eq] at h ⊢
  obtain ⟨forest, hforest, hchecked⟩ := Logged.result_bind_eq_ok_iff.1 h
  obtain ⟨⟨⟩, hlinks, hbuilt⟩ := Logged.result_bind_eq_ok_iff.1 hchecked
  obtain rfl := Except.ok.inj hbuilt
  have hmade := Declaration.makings_flatMap (Logged.result_traverse_eq_ok_iff.1 hforest)
    (fun d _ e he start above => Declaration.makings_expandWithin he start above) 0 none
  rw [← Logged.log_traverse hforest] at hmade
  refine ⟨_, _, ?_, ?_, hmade, Terminology.forall₂_log_checkLinks hlinks⟩
  · rw [Logged.bind_of_ok hforest]
    dsimp only
    rw [Logged.bind_of_ok hlinks]
    dsimp only
    rw [List.append_assoc, List.append_assoc]
    rfl
  · exact Logged.forall_log_traverse fun d _ => Declaration.stage_of_expandWithin

end Registry

/-- Persons, their names and roles: eleven nodes are made, three proxies stand for terms, and in place it is the
same. -/
theorem Terminology.Sample.log_of_built : Sample.registry.build.result = .ok Sample.built ∧
    (∃ made linked located,
      Sample.registry.build.log = made ++ linked ++ located ++ [.built 3 11] ∧
      Event.makings made = [.builtTerm ⟨"name"⟩, .builtTerm ⟨"part"⟩, .builtTerm ⟨"role"⟩, .builtTerm ⟨"text"⟩,
        .builtProxy ⟨"roleText"⟩ (pointer ["role", "text"]), .builtTerm ⟨"person"⟩, .builtTerm ⟨"part"⟩,
        .builtTerm ⟨"role"⟩, .builtTerm ⟨"text"⟩, .builtProxy ⟨"roleText"⟩ (pointer ["role", "text"]),
        .builtProxy ⟨"role"⟩ (pointer ["name", "roleText"])] ∧
      linked.length = 3) ∧
    Sample.registry.buildInPlace = Part.some Sample.registry.build := by
  obtain ⟨⟨made, linked, hlog, -, hmade, hlinked⟩, -, -, hinPlace⟩ := Registry.log_of_build result_build
  have hproxies : ((Sample.built.walk.filterMap Sample.built.node?).filterMap Node.proxy?).length = 3 := by
    decide +kernel
  have hroots : Sample.built.roots.length = 3 := by decide +kernel
  have hsize : Sample.built.size = 11 := by decide +kernel
  rw [hroots, hsize] at hlog
  exact ⟨result_build, ⟨made, linked, _, hlog, hmade.trans (by decide +kernel),
    hlinked.length_eq.symm.trans hproxies⟩, hinPlace apart_registry⟩

end TermAtlas
