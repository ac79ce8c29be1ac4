import TermAtlas.Proofs.Lineage
import TermAtlas.Proofs.Walk

/-!
# Descents

A descent goes from a scope down to a term, from each term to one of its children. A pointer stops once
for each of its names; between two stops there can be other terms, if a proxy is followed there. What
a node spans is the descent from the scope of the node to the term that it stands for.

## What is proved

* `Descends.append`, `Descends.ids_increasing` — descents can be put together, and never meet a term
  twice.
* `Descends.lineage` — a descent from the roots is the lineage of the term where it ends.
* `followWithin_proxy_eq_ok_iff`, `locate_eq_ok_iff` — where a proxy and a pointer lead, by stops.
* `Coherent.exists_follow` — every node stands for a term.
* `Coherent.exists_spanWithin` — a node that stands for a term spans the descent to this term.
-/

namespace TermAtlas.Terminology

/-- `t.Descends scope chain last`: the first term of `chain` is in `scope`, every other one is a child
of the one before it, and `last` is the scope below the last one. -/
inductive Descends (t : Terminology) : Option Nat → List Term → Option Nat → Prop where
  /-- Staying where one is. -/
  | nil {scope : Option Nat} : Descends t scope [] scope
  /-- Going to a term in the scope, and on from there. -/
  | cons {scope last : Option Nat} {link : Link} {term : Term} {rest : List Term} :
      link ∈ t.scope scope → t.term? link.node = some term → Descends t (some link.node) rest last →
      Descends t scope (term :: rest) last

/-- `t.Leads inProgress scope names stops`: the names lead down from `scope`, and `stops` are the terms
that the nodes of these names stand for, given the proxies in progress. -/
inductive Leads (t : Terminology) (inProgress : List Nat) :
    Option Nat → List Name → List Nat → Prop where
  /-- No names lead nowhere. -/
  | nil {scope : Option Nat} : Leads t inProgress scope [] []
  /-- The next name is looked up in the scope, and the others below the term that it stands for. -/
  | cons {scope : Option Nat} {name : Name} {names : List Name} {next stop : Nat} {stops : List Nat} :
      t.child? scope name = some next → t.followWithin inProgress next = .ok stop →
      Leads t inProgress (some stop) names stops →
      Leads t inProgress scope (name :: names) (stop :: stops)

variable {t : Terminology} {scope middle last : Option Nat} {chain below : List Term}
  {inProgress : List Nat} {id target : Nat}

/-! ### From term to term -/

theorem Descends.single {link : Link} {term : Term} (hlink : link ∈ t.scope scope)
    (hterm : t.term? link.node = some term) : t.Descends scope [term] (some link.node) :=
  .cons hlink hterm .nil

theorem Descends.append (h : t.Descends scope chain middle) (hbelow : t.Descends middle below last) :
    t.Descends scope (chain ++ below) last := by
  induction h with
  | nil => exact hbelow
  | cons hlink hterm _ ih => exact .cons hlink hterm (ih hbelow)

/-- The terms of a descent are terms of the terminology, each under its own number. -/
theorem Descends.term?_of_mem (h : t.Descends scope chain last) (hcoherent : t.Coherent) {c : Term}
    (hc : c ∈ chain) : t.term? c.id = some c := by
  induction h with
  | nil => cases hc
  | cons _ hterm _ ih =>
    rcases List.mem_cons.1 hc with rfl | hc
    · rw [hcoherent.id_of_term? hterm, hterm]
    · exact ih hc

theorem getLast?_cons_or (id : Nat) (ids : List Nat) (scope : Option Nat) :
    (id :: ids).getLast?.or scope = ids.getLast?.or (some id) := by
  rw [List.getLast?_cons]
  cases ids.getLast? <;> rfl

/-- A descent ends below its last term, or where it begins. -/
theorem Descends.getLast?_or (h : t.Descends scope chain last) (hcoherent : t.Coherent) :
    (chain.map Term.id).getLast?.or scope = last := by
  induction h with
  | nil => rfl
  | cons _ hterm _ ih =>
    rw [List.map_cons, getLast?_cons_or, hcoherent.id_of_term? hterm, ih]

/-- A descent to somewhere else has a last term. -/
theorem Descends.getLast?_eq (h : t.Descends scope chain last) (hcoherent : t.Coherent)
    (hne : chain ≠ []) : (chain.map Term.id).getLast? = last := by
  have hlast := h.getLast?_or hcoherent
  cases hids : (chain.map Term.id).getLast? with
  | none => exact absurd (List.map_eq_nil_iff.1 (List.getLast?_eq_none_iff.1 hids)) hne
  | some id => rwa [hids, Option.some_or] at hlast

/-- All terms of a descent are below the term that it begins at. -/
theorem Descends.lt_of_mem (h : t.Descends scope chain last) (hcoherent : t.Coherent)
    (hscope : scope = some id) {c : Term} (hc : c ∈ chain) : id < c.id := by
  induction h generalizing id with
  | nil => cases hc
  | cons hlink hterm _ ih =>
    subst hscope
    have hlt := hcoherent.lt_of_mem_scope hlink
    rcases List.mem_cons.1 hc with rfl | hc
    · rwa [hcoherent.id_of_term? hterm]
    · have := ih rfl hc
      omega

/-- No term of a descent is below the one where it ends. -/
theorem Descends.le_of_mem (h : t.Descends scope chain last) (hcoherent : t.Coherent)
    (hlast : last = some target) {c : Term} (hc : c ∈ chain) : c.id ≤ target := by
  induction h generalizing c with
  | nil => cases hc
  | @cons scope last link term rest _ hterm hrest ih =>
    rcases List.mem_cons.1 hc with rfl | hc
    · rw [hcoherent.id_of_term? hterm]
      cases rest with
      | nil =>
        cases hrest
        exact Nat.le_of_eq (Option.some.inj hlast)
      | cons d rest =>
        have hd : d ∈ d :: rest := List.mem_cons_self
        have hlt := hrest.lt_of_mem hcoherent rfl hd
        have hle := ih hlast hd
        omega
    · exact ih hlast hc

/-- The numbers increase along a descent. -/
theorem Descends.ids_increasing (h : t.Descends scope chain last) (hcoherent : t.Coherent) :
    (chain.map Term.id).Pairwise (· < ·) := by
  induction h with
  | nil => exact List.Pairwise.nil
  | cons _ hterm hrest ih =>
    rw [List.map_cons, List.pairwise_cons, hcoherent.id_of_term? hterm]
    refine ⟨fun below hbelow => ?_, ih⟩
    obtain ⟨c, hc, rfl⟩ := List.mem_map.1 hbelow
    exact hrest.lt_of_mem hcoherent rfl hc

/-- A lineage goes on with any descent from its last term. -/
theorem Lineage.append_descends {above : List Term} (h : t.Lineage id above) (hcoherent : t.Coherent)
    (hbelow : t.Descends (some id) below (some target)) : t.Lineage target (above ++ below) := by
  induction below generalizing id above with
  | nil =>
    cases hbelow
    rwa [List.append_nil]
  | cons c rest ih =>
    cases hbelow with
    | cons hlink hterm hrest =>
      have hparent := hcoherent.parent_of_mem_scope hlink (node?_of_term? hterm)
      have hlineage := ih (.inner hterm hparent h) hrest
      rwa [List.append_assoc] at hlineage

/-- A descent from the roots is the lineage of the term where it ends. -/
theorem Descends.lineage (h : t.Descends none chain (some target)) (hcoherent : t.Coherent) :
    t.Lineage target chain := by
  cases h with
  | cons hlink hterm hrest =>
    have hparent := hcoherent.parent_of_mem_scope hlink (node?_of_term? hterm)
    exact Lineage.append_descends (.outermost hterm hparent) hcoherent hrest

/-! ### From stop to stop -/

theorem Leads.length_eq {names : List Name} {stops : List Nat}
    (h : t.Leads inProgress scope names stops) : stops.length = names.length := by
  induction h with
  | nil => rfl
  | cons _ _ _ ih => rw [List.length_cons, List.length_cons, ih]

/-- The first names lead to the first stops. -/
theorem Leads.take {names : List Name} {stops : List Nat} (h : t.Leads inProgress scope names stops)
    (k : Nat) : t.Leads inProgress scope (names.take k) (stops.take k) := by
  induction h generalizing k with
  | nil => simpa using Leads.nil
  | cons hchild hfollow _ ih =>
    cases k with
    | zero => exact .nil
    | succ k => exact .cons hchild hfollow (ih k)

theorem exists_link_of_child? {name : Name} {next : Nat} (h : t.child? scope name = some next) :
    ∃ link ∈ t.scope scope, link.name = name ∧ link.node = next := by
  obtain ⟨link, hlink, rfl⟩ := Option.map_eq_some_iff.1 h
  exact ⟨link, Roster.mem_of_find? hlink, Roster.name_of_find? hlink, rfl⟩

/-- Going down along one name more takes one step more. -/
theorem descend_cons_eq_ok_iff {step : Option Nat → Name → Except Error Nat} {first name : Name}
    {rest : List Name} :
    descend step scope first (name :: rest) = .ok target ↔
      ∃ stop, step scope first = .ok stop ∧ descend step (some stop) name rest = .ok target := by
  simp only [descend, List.foldlM_cons]
  cases step scope first with
  | error e => simp [bind, Except.bind]
  | ok stop => simp [bind, Except.bind]

/-- What going down from name to name comes to, if every step looks a name up and follows what it
finds. -/
theorem descend_eq_ok_iff {step : Option Nat → Name → Except Error Nat} {first : Name}
    {rest : List Name}
    (hstep : ∀ scope name stop, step scope name = .ok stop ↔
      ∃ next, t.child? scope name = some next ∧ t.followWithin inProgress next = .ok stop) :
    descend step scope first rest = .ok target ↔
      ∃ stops, t.Leads inProgress scope (first :: rest) stops ∧ stops.getLast? = some target := by
  induction rest generalizing scope first with
  | nil =>
    have hone : descend step scope first [] = step scope first := by
      cases h : step scope first <;> simp [descend, h, bind, Except.bind, pure, Except.pure]
    rw [hone, hstep]
    constructor
    · rintro ⟨next, hchild, hfollow⟩
      exact ⟨[target], .cons hchild hfollow .nil, rfl⟩
    · rintro ⟨_, hleads, hlast⟩
      cases hleads with
      | cons hchild hfollow hnil =>
        cases hnil
        obtain rfl := Option.some.inj hlast
        exact ⟨_, hchild, hfollow⟩
  | cons name rest ih =>
    rw [descend_cons_eq_ok_iff]
    constructor
    · rintro ⟨stop, hstop, h⟩
      obtain ⟨next, hchild, hfollow⟩ := (hstep _ _ _).1 hstop
      obtain ⟨stops, hstops, hlast⟩ := ih.1 h
      refine ⟨stop :: stops, .cons hchild hfollow hstops, ?_⟩
      rw [List.getLast?_cons, hlast]
      rfl
    · rintro ⟨_, hleads, hlast⟩
      cases hleads with
      | @cons _ _ _ next stop stops hchild hfollow hstops =>
        refine ⟨stop, (hstep _ _ _).2 ⟨next, hchild, hfollow⟩, ih.2 ⟨stops, hstops, ?_⟩⟩
        cases hstops with
        | cons _ _ _ => rwa [List.getLast?_cons_cons] at hlast

/-- What following gives for a number that no node has. -/
theorem followWithin_of_none (hnode : t.node? id = none) (inProgress : List Nat) :
    t.followWithin inProgress id = .error (.unknownTerm id) := by
  rw [followWithin]
  split
  · rfl
  · next hterm => rw [hnode] at hterm; cases hterm
  · next hproxy => rw [hnode] at hproxy; cases hproxy

/-- What following gives for a proxy. -/
theorem followWithin_of_proxy {proxy : Proxy} (hnode : t.node? id = some (.proxy proxy))
    (inProgress : List Nat) :
    t.followWithin inProgress id =
      if id ∈ inProgress then
        .error (.circularReference
          ((inProgress.filterMap t.node?).map Node.name ++ [proxy.name]))
      else
        match proxy.pointer.segments with
        | [] => .error (.badPointer proxy.name proxy.pointer)
        | first :: rest =>
          descend (fun scope name =>
            match t.child? scope name with
            | none => .error (.badPointer proxy.name proxy.pointer)
            | some next => t.followWithin (inProgress ++ [id]) next) proxy.parent first rest := by
  rw [followWithin]
  split
  · next hnone => rw [hnode] at hnone; cases hnone
  · next hterm => rw [hnode] at hterm; cases hterm
  · next found hfound =>
    cases hnode.symm.trans hfound
    rfl

/-- Where a proxy leads: to the last stop of its pointer, as long as it is not in progress itself. -/
theorem followWithin_proxy_eq_ok_iff {proxy : Proxy} (hnode : t.node? id = some (.proxy proxy)) :
    t.followWithin inProgress id = .ok target ↔
      id ∉ inProgress ∧ ∃ stops, t.Leads (inProgress ++ [id]) proxy.parent proxy.pointer.segments stops ∧
        stops.getLast? = some target := by
  rw [followWithin_of_proxy hnode]
  by_cases hid : id ∈ inProgress
  · simp [hid]
  · rw [if_neg hid, and_iff_right hid]
    cases hsegments : proxy.pointer.segments with
    | nil =>
      constructor
      · intro h
        cases h
      · rintro ⟨_, ⟨⟩, hlast⟩
        cases hlast
    | cons first rest =>
      refine descend_eq_ok_iff fun scope name stop => ?_
      cases t.child? scope name with
      | none => simp
      | some next => simp

/-- Where a pointer leads: to its last stop. -/
theorem locate_eq_ok_iff {p : Pointer} :
    t.locate scope p = .ok target ↔
      ∃ stops, t.Leads [] scope p.segments stops ∧ stops.getLast? = some target := by
  rw [locate]
  cases hsegments : p.segments with
  | nil =>
    constructor
    · intro h
      cases h
    · rintro ⟨_, ⟨⟩, hlast⟩
      cases hlast
  | cons first rest =>
    refine descend_eq_ok_iff fun scope name stop => ?_
    cases t.child? scope name with
    | none => simp
    | some next => simp [follow]

/-- What is looked up is the term where the pointer leads. -/
theorem retrieveIn?_eq_some_iff_locate {p : Pointer} {term : Term} :
    t.retrieveIn? scope p = some term ↔
      ∃ target, t.locate scope p = .ok target ∧ t.term? target = some term := by
  rw [retrieveIn?]
  cases t.locate scope p with
  | error e => simp [Except.toOption]
  | ok target => simp [Except.toOption]

/-! ### What a node spans -/

theorem followWithin_term {term : Term} (hterm : t.term? id = some term) (inProgress : List Nat) :
    t.followWithin inProgress id = .ok id := by
  rw [followWithin]
  split
  · next hnone => rw [node?_of_term? hterm] at hnone; cases hnone
  · rfl
  · next hproxy => rw [node?_of_term? hterm] at hproxy; cases hproxy

/-- Every node stands for a term. -/
theorem Coherent.exists_follow (h : t.Coherent) {node : Node} (hnode : t.node? id = some node) :
    ∃ target term, t.follow id = .ok target ∧ t.term? target = some term := by
  cases node with
  | term term => exact ⟨id, term, followWithin_term (term?_of_node? hnode) [], term?_of_node? hnode⟩
  | proxy proxy =>
    obtain ⟨term, hresolve⟩ := h.exists_resolveProxy hnode
    rw [resolveProxy] at hresolve
    cases hfollow : t.follow id with
    | error e => rw [hfollow] at hresolve; cases hresolve
    | ok target =>
      cases hterm : t.term? target with
      | none => simp [hfollow, hterm] at hresolve
      | some term => exact ⟨target, term, rfl, hterm⟩

theorem spanWithin_of_none (hnode : t.node? id = none) (inProgress : List Nat) :
    t.spanWithin inProgress id = none := by
  rw [spanWithin]
  split
  · rfl
  · next hterm => rw [hnode] at hterm; cases hterm
  · next hproxy => rw [hnode] at hproxy; cases hproxy

/-- A proxy in progress spans nothing. -/
theorem spanWithin_of_mem {proxy : Proxy} (hnode : t.node? id = some (.proxy proxy))
    (hid : id ∈ inProgress) : t.spanWithin inProgress id = none := by
  rw [spanWithin]
  split
  · rfl
  · next hterm => rw [hnode] at hterm; cases hterm
  · rw [dif_pos hid]

theorem spanWithin_term {term : Term} (hterm : t.term? id = some term) (inProgress : List Nat) :
    t.spanWithin inProgress id = some [id] := by
  rw [spanWithin]
  split
  · next hnone => rw [node?_of_term? hterm] at hnone; cases hnone
  · rfl
  · next hproxy => rw [node?_of_term? hterm] at hproxy; cases hproxy

theorem spanWithin_proxy {proxy : Proxy} (hnode : t.node? id = some (.proxy proxy))
    (hid : id ∉ inProgress) : t.spanWithin inProgress id =
      t.spanAlong (t.spanWithin (inProgress ++ [id])) proxy.parent proxy.pointer.segments := by
  rw [spanWithin]
  split
  · next hnone => rw [hnode] at hnone; cases hnone
  · next hterm => rw [hnode] at hterm; cases hterm
  · next found hfound =>
    cases hnode.symm.trans hfound
    rw [dif_neg hid]

theorem spanAlong_cons {span : Nat → Option (List Nat)} {name : Name} {names : List Name} :
    t.spanAlong span scope (name :: names) =
      (t.child? scope name).bind fun next => (span next).bind fun steps =>
        (t.spanAlong span steps.getLast? names).map (steps ++ ·) := by
  rw [spanAlong]
  simp only [Option.bind_eq_bind, Option.map_eq_bind, Function.comp_def]

/-- What the names of a pointer span is a descent, with a term at least for each name, if that is so
for each name alone. -/
theorem Leads.exists_spanAlong {names : List Name} {stops : List Nat} (hcoherent : t.Coherent)
    (hspan : ∀ scope link target, link ∈ t.scope scope →
      t.followWithin inProgress link.node = .ok target →
      ∃ chain, t.spanWithin inProgress link.node = some (chain.map Term.id) ∧ chain ≠ [] ∧
        t.Descends scope chain (some target))
    (hleads : t.Leads inProgress scope names stops) :
    ∃ chain, t.spanAlong (t.spanWithin inProgress) scope names = some (chain.map Term.id) ∧
      stops.length ≤ chain.length ∧ t.Descends scope chain (stops.getLast?.or scope) := by
  induction hleads with
  | nil => exact ⟨[], rfl, Nat.le_refl _, .nil⟩
  | @cons scope name names next stop stops hchild hfollow _ ih =>
    obtain ⟨link, hlink, -, rfl⟩ := exists_link_of_child? hchild
    obtain ⟨steps, hsteps, hne, hdescends⟩ := hspan scope link stop hlink hfollow
    obtain ⟨more, hmore, hlength, hend⟩ := ih
    refine ⟨steps ++ more, ?_, ?_, ?_⟩
    · rw [spanAlong_cons, hchild, Option.bind_some, hsteps, Option.bind_some,
        hdescends.getLast?_eq hcoherent hne, hmore, Option.map_some, List.map_append]
    · have hpos := List.length_pos_iff.2 hne
      rw [List.length_append, List.length_cons]
      omega
    · rw [getLast?_cons_or]
      exact hdescends.append hend

/-- A proxy that leads to a term spans a descent from its own scope to this term, if what its pointer
meets does. -/
theorem Coherent.exists_spanWithin_proxy (h : t.Coherent) {proxy : Proxy}
    (hspan : ∀ scope link target, link ∈ t.scope scope →
      t.followWithin (inProgress ++ [id]) link.node = .ok target →
      ∃ chain, t.spanWithin (inProgress ++ [id]) link.node = some (chain.map Term.id) ∧ chain ≠ [] ∧
        t.Descends scope chain (some target))
    (hnode : t.node? id = some (.proxy proxy)) (hfollow : t.followWithin inProgress id = .ok target) :
    ∃ chain, t.spanWithin inProgress id = some (chain.map Term.id) ∧ chain ≠ [] ∧
      t.Descends proxy.parent chain (some target) := by
  obtain ⟨hid, stops, hleads, hlast⟩ := (followWithin_proxy_eq_ok_iff hnode).1 hfollow
  obtain ⟨chain, hchain, hlength, hdescends⟩ := hleads.exists_spanAlong h hspan
  rw [hlast, Option.some_or] at hdescends
  refine ⟨chain, ?_, ?_, hdescends⟩
  · rw [spanWithin_proxy hnode hid]
    exact hchain
  · rintro rfl
    cases stops with
    | nil => cases hlast
    | cons stop stops => simp at hlength

/-- A node that stands for a term spans a descent from the scope of the node to this term. -/
theorem Coherent.exists_spanWithin (h : t.Coherent) {link : Link} (hlink : link ∈ t.scope scope)
    (hfollow : t.followWithin inProgress link.node = .ok target) :
    ∃ chain, t.spanWithin inProgress link.node = some (chain.map Term.id) ∧ chain ≠ [] ∧
      t.Descends scope chain (some target) := by
  -- there are fewer and fewer other proxies that are not in progress
  induction hlength : (t.others inProgress).length using Nat.strongRecOn
    generalizing inProgress scope link target with
  | _ length ih =>
    obtain ⟨node, hnode, -, hparent⟩ := h.entry hlink
    cases node with
    | term term =>
      have hterm := term?_of_node? hnode
      rw [followWithin_term hterm] at hfollow
      obtain rfl := Except.ok.inj hfollow
      refine ⟨[term], ?_, List.cons_ne_nil _ _, .single hlink hterm⟩
      rw [spanWithin_term hterm, List.map_singleton, h.id_of_term? hterm]
    | proxy proxy =>
      obtain rfl : proxy.parent = scope := hparent
      have hless := length_others_lt (lt_size_of_node? hnode)
        ((followWithin_proxy_eq_ok_iff hnode).1 hfollow).1
      exact h.exists_spanWithin_proxy
        (fun _ _ _ hlink hfollow => ih _ (hlength ▸ hless) hlink hfollow rfl) hnode hfollow

end TermAtlas.Terminology
