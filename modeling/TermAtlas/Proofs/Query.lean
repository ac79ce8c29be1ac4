import TermAtlas.Proofs.Descent

/-!
# Queries

The path expression of an indexed pointer is put together from the spans of its steps, those of a term
were stored when the term was built. Both tell the lineage of the term that the pointer leads to, and
an indexed pointer adds its positions.

## What is proved

* `Coherent.exists_queryTexts`, `Coherent.exists_leads` — there are texts exactly if the names lead to
  a term and no index is too large; they are those of a descent.
* `Leads.marks` — the positions of an indexed pointer stand where its steps lead.
* `Coherent.query?_eq_constrained` — without indices a query gives a path that was stored.
* `Reached.query?_eq` — a query spells the lineage of the term that it asks for, with a position behind
  each term that one of its indices is for.
-/

namespace TermAtlas

/-- The position that the step asks for, counted from one; nothing if it asks for none. -/
def Step.mark (step : Step) : String :=
  match step.index with
  | none => ""
  | some index => "[" ++ toString (index.toNat + 1) ++ "]"

/-- The text of a step to the term, without a position. -/
def Term.stepText (c : Term) : String := c.paths.relative ++ c.traits.predicates

/-- The first `k` names. -/
def Pointer.front (p : Pointer) (k : Nat) : Pointer := ⟨p.segments.take k⟩

namespace Terminology

/-- `mark` says what stands behind the text of each term of a chain: the position that a step of `p`
asks for if the pointer up to this step leads to the term, and nothing if there is no such step. -/
structure Marks (t : Terminology) (p : IndexedPointer) (chain : List Term) (mark : Term → String) :
    Prop where
  /-- Each step leads to a term of the chain, and its position stands there. -/
  stop : ∀ k step, p.steps[k]? = some step →
    ∃ c ∈ chain, t.retrieve? (p.toPointer.front (k + 1)) = some c ∧ mark c = step.mark
  /-- No position stands elsewhere. -/
  other : ∀ c ∈ chain,
    (∀ k < p.steps.length, t.retrieve? (p.toPointer.front (k + 1)) ≠ some c) → mark c = ""

variable {t : Terminology} {scope last : Option Nat} {chain : List Term} {id target : Nat}

/-! ### Positions -/

/-- The position at the stop `id`, if the pointer stops once for each of these steps. -/
def markAt : List Nat → List Step → Nat → String
  | stop :: stops, step :: steps, id => if id = stop then step.mark else markAt stops steps id
  | _, _, _ => ""

theorem markAt_of_notMem {stops : List Nat} {steps : List Step} (h : id ∉ stops) :
    markAt stops steps id = "" := by
  induction stops generalizing steps with
  | nil => rfl
  | cons stop stops ih =>
    rw [List.mem_cons, not_or] at h
    cases steps with
    | nil => rfl
    | cons step steps => rw [markAt, if_neg h.1, ih h.2]

theorem markAt_of_getElem? {stops : List Nat} {steps : List Step} {step : Step} {k : Nat}
    (hnodup : stops.Nodup) (hstop : stops[k]? = some id) (hstep : steps[k]? = some step) :
    markAt stops steps id = step.mark := by
  induction stops generalizing steps k with
  | nil => cases hstop
  | cons stop stops ih =>
    rw [List.nodup_cons] at hnodup
    cases steps with
    | nil => cases hstep
    | cons other steps =>
      cases k with
      | zero =>
        obtain rfl : stop = id := Option.some.inj hstop
        obtain rfl : other = step := Option.some.inj hstep
        rw [markAt, if_pos rfl]
      | succ k =>
        have hid : id ≠ stop := by
          rintro rfl
          exact hnodup.1 (List.mem_of_getElem? hstop)
        rw [markAt, if_neg hid]
        exact ih hnodup.2 hstop hstep

/-- There is a position behind every index but the greatest. -/
theorem position_eq_some_iff {index : UInt64} {text : String} :
    position index = some text ↔
      index.toNat + 1 ≠ UInt64.size ∧ text = "[" ++ toString (index.toNat + 1) ++ "]" := by
  have hlt := index.toNat_lt_size
  rw [position]
  split
  · next h =>
    rw [Option.some.injEq, eq_comm, and_iff_right (by omega)]
  · next h =>
    constructor
    · intro h
      cases h
    · rintro ⟨hne, -⟩
      omega

/-! ### Texts -/

theorem mapM_eq_some_iff {α β : Type} {f : α → Option β} {items : List α} {results : List β} :
    items.mapM f = some results ↔ items.map f = results.map some := by
  induction items generalizing results with
  | nil => cases results <;> simp
  | cons a rest ih =>
    rw [List.mapM_cons, List.map_cons]
    cases results with
    | nil => cases f a <;> simp [Option.bind_eq_some_iff]
    | cons b others =>
      rw [List.map_cons, List.cons.injEq, ← ih]
      cases f a <;> cases rest.mapM f <;> simp

/-- The texts of a step, the position behind the last. -/
theorem stepTexts_of_index {step : Step} (hterms : ∀ c ∈ chain, t.term? c.id = some c)
    (hlast : (chain.map Term.id).getLast? = some target)
    (hindex : ∀ index, step.index = some index → index.toNat + 1 ≠ UInt64.size) :
    t.stepTexts step.index (chain.map Term.id) =
      some (chain.map fun c => c.stepText ++ if c.id = target then step.mark else "") := by
  rw [stepTexts, mapM_eq_some_iff, List.map_map, List.map_map]
  refine List.map_congr_left fun c hc => ?_
  simp only [Function.comp, hterms c hc, Option.bind_eq_bind, Option.bind_some, hlast,
    Option.some.injEq]
  rw [Step.mark]
  cases hstep : step.index with
  | none => simp [Term.stepText]
  | some index =>
    by_cases hid : c.id = target
    · have hposition := position_eq_some_iff.2 ⟨hindex index hstep, rfl⟩
      simp only [hid, if_true, hposition, Option.map_some]
      rfl
    · simp [hid, Ne.symm hid, Term.stepText]

/-- A step with an index has texts only if there is a position behind the index. -/
theorem index_of_stepTexts {step : Step} {span : List Nat} {texts : List String}
    (hlast : span.getLast? = some target) (h : t.stepTexts step.index span = some texts) :
    ∀ index, step.index = some index → index.toNat + 1 ≠ UInt64.size := by
  intro index hindex
  rw [stepTexts, mapM_eq_some_iff] at h
  obtain ⟨text, -, htext⟩ := List.mem_map.1 (h ▸ List.mem_map_of_mem (List.mem_of_getLast? hlast))
  cases hterm : t.term? target with
  | none => simp [hterm] at htext
  | some term =>
    simp only [hterm, hindex, hlast, if_true, Option.bind_eq_bind, Option.bind_some] at htext
    obtain ⟨_, hposition, -⟩ := Option.map_eq_some_iff.1 htext.symm
    exact (position_eq_some_iff.1 hposition).1

/-- Names that lead somewhere have texts if there is a position behind each index: those of the descent
to the last stop. -/
theorem Coherent.exists_queryTexts (h : t.Coherent) {steps : List Step} {stops : List Nat}
    (hleads : t.Leads [] scope (steps.map Step.name) stops)
    (hindex : ∀ step ∈ steps, ∀ index, step.index = some index → index.toNat + 1 ≠ UInt64.size) :
    ∃ chain, t.Descends scope chain (stops.getLast?.or scope) ∧
      stops.Sublist (chain.map Term.id) ∧
      t.queryTexts scope steps =
        some (chain.map fun c => c.stepText ++ markAt stops steps c.id) := by
  induction steps generalizing scope stops with
  | nil =>
    cases hleads
    exact ⟨[], .nil, List.Sublist.slnil, rfl⟩
  | cons step steps ih =>
    cases hleads with
    | @cons _ _ _ next stop stops hchild hfollow hleads =>
      obtain ⟨link, hlink, -, rfl⟩ := exists_link_of_child? hchild
      obtain ⟨upper, hspan, hne, hupper⟩ := h.exists_spanWithin hlink hfollow
      obtain ⟨lower, hlower, hstops, htexts⟩ :=
        ih hleads fun other hother => hindex other (List.mem_cons_of_mem _ hother)
      have hlast := hupper.getLast?_eq h hne
      have hstep := stepTexts_of_index (fun c hc => hupper.term?_of_mem h hc) hlast
        (hindex step List.mem_cons_self)
      -- the other stops are below this one, and the terms that this step spans are not
      have hbelow : ∀ other ∈ stops, stop < other := by
        intro other hother
        obtain ⟨c, hc, rfl⟩ := List.mem_map.1 (hstops.subset hother)
        exact hlower.lt_of_mem h rfl hc
      refine ⟨upper ++ lower, hupper.append ?_, ?_, ?_⟩
      · rwa [getLast?_cons_or]
      · rw [List.map_append]
        exact (List.singleton_sublist.2 (List.mem_of_getLast? hlast)).append hstops
      · simp only [queryTexts, hchild, span, hspan, hlast, hstep, htexts, Option.bind_eq_bind,
          Option.bind_some, Option.some.injEq]
        rw [List.map_append]
        congr 1
        · refine List.map_congr_left fun c hc => ?_
          rw [markAt]
          split
          · rfl
          · rw [markAt_of_notMem]
            intro hmem
            have hle := hupper.le_of_mem h rfl hc
            have hlt := hbelow c.id hmem
            omega
        · refine List.map_congr_left fun c hc => ?_
          have hlt := hlower.lt_of_mem h rfl hc
          rw [markAt, if_neg (by omega)]

/-- Names that have texts lead somewhere, and there is a position behind each index. -/
theorem Coherent.exists_leads (h : t.Coherent) {steps : List Step} {texts : List String}
    (htexts : t.queryTexts scope steps = some texts) :
    (∃ stops, t.Leads [] scope (steps.map Step.name) stops) ∧
      ∀ step ∈ steps, ∀ index, step.index = some index → index.toNat + 1 ≠ UInt64.size := by
  induction steps generalizing scope texts with
  | nil => exact ⟨⟨[], .nil⟩, by simp⟩
  | cons step steps ih =>
    simp only [queryTexts, Option.bind_eq_bind, Option.bind_eq_some_iff] at htexts
    obtain ⟨next, hchild, span, hspan, last, hlast, texts, hstep, more, hmore, -⟩ := htexts
    obtain ⟨link, hlink, -, rfl⟩ := exists_link_of_child? hchild
    obtain ⟨node, hnode, -, -⟩ := h.entry hlink
    obtain ⟨stop, -, hfollow, -⟩ := h.exists_follow hnode
    obtain ⟨upper, hupper, hne, hdescends⟩ := h.exists_spanWithin hlink hfollow
    -- the span ends in the term that the node stands for
    obtain rfl := Option.some.inj (hupper.symm.trans hspan)
    obtain rfl := Option.some.inj ((hdescends.getLast?_eq h hne).symm.trans hlast)
    obtain ⟨⟨stops, hstops⟩, hindex⟩ := ih hmore
    refine ⟨⟨stop :: stops, .cons hchild hfollow hstops⟩, fun other hother => ?_⟩
    rcases List.mem_cons.1 hother with rfl | hother
    · exact index_of_stepTexts hlast hstep
    · exact hindex other hother

/-! ### Queries and lineages -/

theorem retrieve?_eq_some_iff {p : Pointer} {term : Term} :
    t.retrieve? p = some term ↔
      ∃ stops target, t.Leads [] none p.segments stops ∧ stops.getLast? = some target ∧
        t.term? target = some term := by
  rw [retrieve?, retrieveIn?_eq_some_iff_locate]
  constructor
  · rintro ⟨target, hlocate, hterm⟩
    obtain ⟨stops, hstops, hlast⟩ := locate_eq_ok_iff.1 hlocate
    exact ⟨stops, target, hstops, hlast, hterm⟩
  · rintro ⟨stops, target, hstops, hlast, hterm⟩
    exact ⟨target, locate_eq_ok_iff.2 ⟨stops, hstops, hlast⟩, hterm⟩

/-- The first `k + 1` names lead to the stop number `k`. -/
theorem Leads.retrieve?_front {p : Pointer} {stops : List Nat} {stop k : Nat} {c : Term}
    (h : t.Leads [] none p.segments stops) (hstop : stops[k]? = some stop)
    (hc : t.term? stop = some c) : t.retrieve? (p.front (k + 1)) = some c := by
  refine retrieve?_eq_some_iff.2 ⟨stops.take (k + 1), stop, h.take (k + 1), ?_, hc⟩
  rw [List.getLast?_take, if_neg (by omega), Nat.add_sub_cancel, hstop, Option.some_or]

/-- The positions at the stops of a pointer are marks along the descent that it makes. -/
theorem Leads.marks {p : IndexedPointer} {stops : List Nat}
    (h : t.Leads [] none p.toPointer.segments stops) (hcoherent : t.Coherent)
    (hdescends : t.Descends none chain last) (hstops : stops.Sublist (chain.map Term.id)) :
    t.Marks p chain fun c => markAt stops p.steps c.id := by
  have hlength : stops.length = p.steps.length := by
    simpa [IndexedPointer.toPointer] using h.length_eq
  have hnodup : stops.Nodup :=
    ((hdescends.ids_increasing hcoherent).imp Nat.ne_of_lt).sublist hstops
  constructor
  · intro k step hstep
    have hk : k < stops.length := hlength ▸ (List.getElem?_eq_some_iff.1 hstep).1
    have hstop := List.getElem?_eq_getElem hk
    obtain ⟨c, hc, hid⟩ := List.mem_map.1 (hstops.subset (List.getElem_mem hk))
    rw [← hid] at hstop
    refine ⟨c, hc, h.retrieve?_front hstop (hdescends.term?_of_mem hcoherent hc), ?_⟩
    exact markAt_of_getElem? hnodup hstop hstep
  · intro c hc hother
    apply markAt_of_notMem
    intro hmem
    obtain ⟨k, hk, hid⟩ := List.getElem_of_mem hmem
    have hstop : stops[k]? = some c.id := hid ▸ List.getElem?_eq_getElem hk
    exact hother k (hlength ▸ hk)
      (h.retrieve?_front hstop (hdescends.term?_of_mem hcoherent hc))

/-- A query for a term that is there, with a position behind each index, spells the lineage of the
term. -/
theorem Coherent.exists_query (h : t.Coherent) {p : IndexedPointer} {term : Term}
    (hretrieve : t.retrieve? p.toPointer = some term)
    (hindex : ∀ step ∈ p.steps, ∀ index, step.index = some index → index.toNat + 1 ≠ UInt64.size) :
    ∃ chain mark, t.Lineage term.id chain ∧ t.Marks p chain mark ∧
      t.query? p = some (spelled (chain.map fun c => c.stepText ++ mark c)) := by
  obtain ⟨stops, target, hleads, hlast, hterm⟩ := retrieve?_eq_some_iff.1 hretrieve
  obtain ⟨chain, hdescends, hstops, htexts⟩ := h.exists_queryTexts hleads hindex
  rw [hlast, Option.some_or] at hdescends
  have hlineage := hdescends.lineage h
  refine ⟨chain, _, ?_, hleads.marks h hdescends hstops, ?_⟩
  · rwa [h.id_of_term? hterm]
  · cases chain with
    | nil => exact absurd rfl hlineage.ne_nil
    | cons c rest =>
      rw [query?, htexts]
      rfl

/-- There is a query only for a term that is there, with a position behind each index. -/
theorem Coherent.retrieve?_of_query? (h : t.Coherent) {p : IndexedPointer} {text : String}
    (hquery : t.query? p = some text) :
    (t.retrieve? p.toPointer).isSome ∧
      ∀ step ∈ p.steps, ∀ index, step.index = some index → index.toNat + 1 ≠ UInt64.size := by
  rw [query?] at hquery
  split at hquery
  · cases hquery
  · cases hquery
  · next texts hne htexts =>
    obtain ⟨⟨stops, hleads⟩, hindex⟩ := h.exists_leads htexts
    refine ⟨?_, hindex⟩
    obtain ⟨chain, hdescends, hstops, htexts'⟩ := h.exists_queryTexts hleads hindex
    cases hlast : stops.getLast? with
    | none =>
      -- without a stop there are no steps, and then there is no text
      obtain rfl := List.getLast?_eq_none_iff.1 hlast
      have hsteps : p.steps = [] := by simpa using hleads.length_eq.symm
      rw [hsteps] at htexts
      exact absurd (Option.some.inj htexts).symm hne
    | some target =>
      obtain ⟨c, hc, rfl⟩ := List.mem_map.1 (hstops.subset (List.mem_of_getLast? hlast))
      exact Option.isSome_iff_exists.2
        ⟨c, retrieve?_eq_some_iff.2 ⟨stops, c.id, hleads, hlast, hdescends.term?_of_mem h hc⟩⟩

/-- Nothing stands behind any step if the pointer asks for no positions. -/
theorem Marks.eq_empty {p : IndexedPointer} {mark : Term → String} (h : t.Marks p chain mark)
    (hindex : ∀ step ∈ p.steps, step.index = none) {c : Term} (hc : c ∈ chain) : mark c = "" := by
  by_cases hstop : ∃ k step, p.steps[k]? = some step ∧
      t.retrieve? (p.toPointer.front (k + 1)) = some c
  · obtain ⟨k, step, hstep, hretrieve⟩ := hstop
    obtain ⟨c', -, hretrieve', hmark⟩ := h.stop k step hstep
    obtain rfl := Option.some.inj (hretrieve'.symm.trans hretrieve)
    rw [hmark, Step.mark, hindex step (List.mem_of_getElem? hstep)]
  · refine h.other c hc fun k hk hretrieve => hstop ⟨k, p.steps[k], ?_, hretrieve⟩
    exact List.getElem?_eq_getElem hk

/-- A query without indices gives the path that the term was stored with. -/
theorem Coherent.query?_eq_constrained (h : t.Coherent) {p : IndexedPointer}
    (hindex : ∀ step ∈ p.steps, step.index = none) :
    t.query? p = (t.retrieve? p.toPointer).map (·.paths.constrained) := by
  cases hretrieve : t.retrieve? p.toPointer with
  | none =>
    cases hquery : t.query? p with
    | none => rfl
    | some text =>
      have hsome := (h.retrieve?_of_query? hquery).1
      rw [hretrieve] at hsome
      cases hsome
  | some term =>
    have hbound : ∀ step ∈ p.steps, ∀ index, step.index = some index →
        index.toNat + 1 ≠ UInt64.size := by
      intro step hstep index hsome
      rw [hindex step hstep] at hsome
      cases hsome
    obtain ⟨chain, mark, hlineage, hmarks, hspelled⟩ := h.exists_query hretrieve hbound
    obtain ⟨_, _, -, -, hterm⟩ := retrieve?_eq_some_iff.1 hretrieve
    have hid := h.id_of_term? hterm
    rw [← hid] at hterm
    rw [hspelled, Option.map_some, hlineage.constrained_eq h hterm]
    congr 2
    refine List.map_congr_left fun c hc => ?_
    rw [hmarks.eq_empty hindex hc, Term.stepText, String.append_empty]

/-- A query is answered exactly if its names lead to a term and there is a position behind each index.
The answer spells the lineage of this term, with a position behind each term that one of the indices
is for; without indices it is the path that the term was stored with. -/
theorem Reached.query?_eq (h : t.Reached) (p : IndexedPointer) :
    ((t.query? p).isSome ↔ (t.retrieve? p.toPointer).isSome ∧
        ∀ step ∈ p.steps, ∀ index, step.index = some index → index.toNat + 1 ≠ UInt64.size) ∧
      (∀ text, t.query? p = some text → ∃ term chain mark,
        t.retrieve? p.toPointer = some term ∧ t.Lineage term.id chain ∧ t.Marks p chain mark ∧
          text = "//" ++ "/".intercalate
            (chain.map fun c => c.paths.relative ++ c.traits.predicates ++ mark c)) ∧
      ((∀ step ∈ p.steps, step.index = none) →
        t.query? p = (t.retrieve? p.toPointer).map (·.paths.constrained)) := by
  have hcoherent := h.coherent
  refine ⟨⟨fun hquery => ?_, fun hretrieve => ?_⟩, fun text hquery => ?_, fun hindex => ?_⟩
  · obtain ⟨text, htext⟩ := Option.isSome_iff_exists.1 hquery
    exact hcoherent.retrieve?_of_query? htext
  · obtain ⟨term, hterm⟩ := Option.isSome_iff_exists.1 hretrieve.1
    obtain ⟨chain, mark, -, -, hquery⟩ := hcoherent.exists_query hterm hretrieve.2
    rw [hquery]
    rfl
  · obtain ⟨hsome, hindex⟩ := hcoherent.retrieve?_of_query? hquery
    obtain ⟨term, hterm⟩ := Option.isSome_iff_exists.1 hsome
    obtain ⟨chain, mark, hlineage, hmarks, hspelled⟩ := hcoherent.exists_query hterm hindex
    exact ⟨term, chain, mark, hterm, hlineage, hmarks,
      Option.some.inj (hquery.symm.trans hspelled)⟩
  · exact hcoherent.query?_eq_constrained hindex

/-- The fourth text of a role, asked for through two proxies: only the last term has a position. -/
theorem Sample.query?_of_role : Sample.grafted.Reached ∧
    ∃ term chain mark, Sample.grafted.retrieve? (Sample.pointer ["role"]) = some term ∧
      Sample.grafted.Lineage term.id chain ∧
      Sample.grafted.Marks ⟨[⟨⟨"role"⟩, some 3⟩]⟩ chain mark ∧
      "//oxns:name/oxns:role/oxns:roleTerm[4]" = "//" ++ "/".intercalate
        (chain.map fun c => c.paths.relative ++ c.traits.predicates ++ mark c) := by
  have hquery : Sample.grafted.query? ⟨[⟨⟨"role"⟩, some 3⟩]⟩ =
      some "//oxns:name/oxns:role/oxns:roleTerm[4]" := by decide +kernel
  obtain ⟨-, hspelled, -⟩ := Reached.query?_eq Sample.reached_grafted ⟨[⟨⟨"role"⟩, some 3⟩]⟩
  exact ⟨Sample.reached_grafted, hspelled _ hquery⟩

end Terminology

end TermAtlas
