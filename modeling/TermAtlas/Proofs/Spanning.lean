import TermAtlas.Proofs.Descent

/-!
# Spans of proxies

What a proxy spans is found one name of its pointer at a time, and all that is remembered from one name
to the next is the last term that the name spans. If a name could span nothing, the next one would be
looked up among the roots. This does not happen where every proxy stands for a term: a pointer that
leads somewhere has a name, and the last of its names spans a term.

Following a proxy only looks at the stops of its pointer, and a span at every term on the way. Both
have the proxies in progress to themselves, and still they end at the same term.

## What is proved

* `Coherent.spanWithin_ne_nil` — where every proxy stands for a term, no node spans nothing.
* `Reached.exists_span` — a proxy spans a way down from its own scope, child by child and never twice
  through the same term, to the term that it stands for.
-/

namespace TermAtlas.Terminology

variable {t : Terminology} {scope : Option Nat} {inProgress : List Nat} {id target : Nat}

/-! ### Never nothing -/

/-- Names span terms if each one does. -/
theorem spanAlong_ne_nil {span : Nat → Option (List Nat)} (hspan : ∀ next, span next ≠ some [])
    {names : List Name} (hnames : names ≠ []) : t.spanAlong span scope names ≠ some [] := by
  cases names with
  | nil => exact absurd rfl hnames
  | cons name names =>
    intro h
    rw [spanAlong_cons] at h
    obtain ⟨next, -, h⟩ := Option.bind_eq_some_iff.1 h
    obtain ⟨steps, hsteps, h⟩ := Option.bind_eq_some_iff.1 h
    obtain ⟨more, -, h⟩ := Option.map_eq_some_iff.1 h
    rw [(List.append_eq_nil_iff.1 h).1] at hsteps
    exact hspan next hsteps

/-- A proxy that stands for a term has a name in its pointer. -/
theorem Coherent.segments_ne_nil (h : t.Coherent) {proxy : Proxy}
    (hnode : t.node? id = some (.proxy proxy)) : proxy.pointer.segments ≠ [] := by
  obtain ⟨target, -, hfollow, -⟩ := h.exists_follow hnode
  obtain ⟨-, stops, hleads, hlast⟩ := (followWithin_proxy_eq_ok_iff hnode).1 hfollow
  intro hnil
  rw [hnil] at hleads
  cases hleads
  cases hlast

/-- Where every proxy stands for a term, no node spans nothing, whichever proxies are in progress. -/
theorem Coherent.spanWithin_ne_nil (h : t.Coherent) : t.spanWithin inProgress id ≠ some [] := by
  induction inProgress, id using spanWithin.induct t with
  | case1 inProgress id hnode => simp [spanWithin_of_none hnode]
  | case2 inProgress id term hnode => simp [spanWithin_term (term?_of_node? hnode)]
  | case3 inProgress id proxy hnode hid => simp [spanWithin_of_mem hnode hid]
  | case4 inProgress id proxy hnode hid ih =>
    rw [spanWithin_proxy hnode hid]
    exact spanAlong_ne_nil ih (h.segments_ne_nil hnode)

/-- A proxy without a pointer does span nothing, and behind it the next name is looked up among the
roots. -/
example :
    let outer : Name := ⟨"outer"⟩
    let lost := ofForest [.term outer (.ofSettings outer default)
      [.proxy ⟨"nowhere"⟩ ⟨[]⟩ default, .proxy ⟨"astray"⟩ ⟨[⟨"nowhere"⟩, outer]⟩ default]]
    lost.span 1 = some [] ∧ lost.span 2 = some [0] := by
  decide +kernel

/-! ### Where it ends -/

/-- A descent goes from each of its terms to a child. -/
theorem Descends.isChain {last : Option Nat} {chain : List Term} (h : t.Descends scope chain last)
    (hcoherent : t.Coherent) :
    (chain.map Term.id).IsChain fun above below => ∃ link ∈ t.scope (some above), link.node = below := by
  induction h with
  | nil => exact .nil
  | @cons _ _ link term rest _ hterm hrest ih =>
    cases hrest with
    | nil => exact .singleton _
    | @cons _ _ next below rest hnext hbelow _ =>
      refine .cons_cons ⟨next, ?_, (hcoherent.id_of_term? hbelow).symm⟩ ih
      rwa [hcoherent.id_of_term? hterm]

/-- The first term of a descent is in the scope where it begins. -/
theorem Descends.exists_head {last : Option Nat} {chain : List Term} (h : t.Descends scope chain last)
    (hcoherent : t.Coherent) (hne : chain ≠ []) :
    ∃ link ∈ t.scope scope, (chain.map Term.id).head? = some link.node := by
  cases h with
  | nil => exact absurd rfl hne
  | cons hlink hterm _ => exact ⟨_, hlink, congrArg some (hcoherent.id_of_term? hterm)⟩

/-- Whatever was grafted, a proxy spans the terms of a way down from its own scope, each one a child of
the one before it and none of them twice, and the last one is the term that following the proxy
gives. -/
theorem Reached.exists_span (h : t.Reached) {proxy : Proxy}
    (hnode : t.node? id = some (.proxy proxy)) :
    ∃ path last, t.span id = some path ∧ t.follow id = .ok last ∧
      path ≠ [] ∧ path.Nodup ∧ (∀ stop ∈ path, ∃ term, t.node? stop = some (.term term)) ∧
      (∃ link ∈ t.scope proxy.parent, path.head? = some link.node) ∧
      path.IsChain (fun above below => ∃ link ∈ t.scope (some above), link.node = below) ∧
      path.getLast? = some last := by
  have hcoherent := h.coherent
  obtain ⟨last, -, hfollow, -⟩ := hcoherent.exists_follow hnode
  obtain ⟨chain, hspan, hne, hdescends⟩ := hcoherent.exists_spanWithin_proxy
    (fun _ _ _ hlink hfollow => hcoherent.exists_spanWithin hlink hfollow) hnode hfollow
  refine ⟨chain.map Term.id, last, hspan, hfollow,
    fun hnil => hne (List.map_eq_nil_iff.1 hnil), ?_, fun stop hstop => ?_,
    hdescends.exists_head hcoherent hne, hdescends.isChain hcoherent, hdescends.getLast?_eq hcoherent hne⟩
  · exact (hdescends.ids_increasing hcoherent).imp Nat.ne_of_lt
  · obtain ⟨term, hterm, rfl⟩ := List.mem_map.1 hstop
    exact ⟨term, node?_of_term? (hdescends.term?_of_mem hcoherent hterm)⟩

/-- The role among the roots leads to the text of a role by way of another proxy. -/
theorem Sample.span_of_role : Sample.grafted.Reached ∧
    ∃ proxy, Sample.grafted.node? 10 = some (.proxy proxy) ∧
      Sample.grafted.span 10 = some [0, 2, 3] ∧ Sample.grafted.follow 10 = .ok 3 := by
  have hnode : Sample.grafted.node? 10 = some (.proxy ⟨10, ⟨"role"⟩, none, pointer ["name", "roleText"],
      OrderedMap.ofList [(.proxy, .pointer (pointer ["name", "roleText"]))]⟩) := by
    decide +kernel
  have hspan : Sample.grafted.span 10 = some [0, 2, 3] := by decide +kernel
  obtain ⟨path, last, hpath, hfollow, -, -, -, -, -, hlast⟩ :=
    Reached.exists_span reached_grafted hnode
  obtain rfl := Option.some.inj (hspan.symm.trans hpath)
  obtain rfl := Option.some.inj hlast
  exact ⟨reached_grafted, _, hnode, hspan, hfollow⟩

end TermAtlas.Terminology
