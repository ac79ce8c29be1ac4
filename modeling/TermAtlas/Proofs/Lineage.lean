import TermAtlas.Proofs.Coherence

/-!
# Lineages

The lineage of a term is the list of the terms above it, from the outermost one down to the term
itself. Each of the paths of a term is spelled by its lineage: the segments, with the attribute
constraints or without them, one behind the other.

## What is proved

* `Lineage.unique`, `Coherent.exists_lineage` — in a coherent terminology every term has one lineage.
* `Lineage.paths`, `Lineage.constrained_eq` — the paths of a term are those that its lineage spells.
* `Reached.paths_of_lineage` — no path is ever out of date.
-/

namespace TermAtlas.Terminology

/-- `t.Lineage id chain`: the term `id` is the last one of `chain`, every other term of it is the
parent of the next one, and the first one has no parent. -/
inductive Lineage (t : Terminology) : Nat → List Term → Prop where
  /-- A term without a parent. -/
  | outermost {id : Nat} {term : Term} :
      t.term? id = some term → term.parent = none → Lineage t id [term]
  /-- A term below another one. -/
  | inner {id parent : Nat} {term : Term} {above : List Term} :
      t.term? id = some term → term.parent = some parent → Lineage t parent above →
      Lineage t id (above ++ [term])

variable {t : Terminology} {id : Nat} {term : Term} {chain : List Term}

theorem Lineage.ne_nil (h : t.Lineage id chain) : chain ≠ [] := by
  cases h <;> simp

/-- A lineage ends in the term that it is the lineage of. -/
theorem Lineage.getLast? (h : t.Lineage id chain) : chain.getLast? = t.term? id := by
  cases h with
  | outermost hterm _ => rw [hterm, List.getLast?_singleton]
  | inner hterm _ _ => rw [hterm, List.getLast?_concat]

/-- A term has at most one lineage. -/
theorem Lineage.unique (h : t.Lineage id chain) {other : List Term} (h' : t.Lineage id other) :
    other = chain := by
  induction h generalizing other with
  | outermost hterm hparent =>
    cases h' with
    | outermost hterm' _ => rw [Option.some.inj (hterm'.symm.trans hterm)]
    | inner hterm' hparent' _ =>
      obtain rfl := Option.some.inj (hterm'.symm.trans hterm)
      rw [hparent] at hparent'
      cases hparent'
  | inner hterm hparent _ ih =>
    cases h' with
    | outermost hterm' hparent' =>
      obtain rfl := Option.some.inj (hterm'.symm.trans hterm)
      rw [hparent] at hparent'
      cases hparent'
    | inner hterm' hparent' h' =>
      obtain rfl := Option.some.inj (hterm'.symm.trans hterm)
      obtain rfl := Option.some.inj (hparent'.symm.trans hparent)
      rw [ih h']

/-- Every term has a lineage: numbers get smaller on the way up. -/
theorem Coherent.exists_lineage (h : t.Coherent) (hterm : t.term? id = some term) :
    ∃ chain, t.Lineage id chain := by
  induction id using Nat.strongRecOn generalizing term with
  | _ id ih =>
    cases hparent : term.parent with
    | none => exact ⟨[term], .outermost hterm hparent⟩
    | some parent =>
      obtain ⟨hlt, hsome⟩ := (h.placed id _ (node?_of_term? hterm)).parent parent hparent
      obtain ⟨upper, hupper⟩ := Option.isSome_iff_exists.1 hsome
      obtain ⟨above, habove⟩ := ih parent hlt hupper
      exact ⟨above ++ [term], .inner hterm hparent habove⟩

/-! ### What a lineage spells -/

/-- The path that a list of segments makes. -/
def spelled (segments : List String) : String := "//" ++ "/".intercalate segments

/-- A path grows by a slash and a segment. -/
theorem spelled_concat {segments : List String} (h : segments ≠ []) (segment : String) :
    spelled (segments ++ [segment]) = spelled segments ++ "/" ++ segment := by
  rw [spelled, String.intercalate_append_of_ne_nil h (by simp), String.intercalate_singleton, spelled]
  simp only [String.append_assoc]

/-- The paths of a term are those that its lineage spells. -/
theorem Lineage.paths (h : t.Coherent) (hchain : t.Lineage id chain)
    (hterm : t.term? id = some term) :
    term.paths = ⟨spelled (chain.map (·.traits.segment)),
      spelled (chain.map fun c => c.traits.segment ++ c.traits.predicates), term.traits.segment⟩ := by
  induction hchain generalizing term with
  | outermost hterm' hparent =>
    obtain rfl := Option.some.inj (hterm'.symm.trans hterm)
    rw [(h.placed _ _ (node?_of_term? hterm)).paths _ rfl, hparent]
    simp [XPaths.below, spelled, String.append_assoc]
  | inner hterm' hparent hchain ih =>
    obtain rfl := Option.some.inj (hterm'.symm.trans hterm)
    obtain ⟨-, hsome⟩ := (h.placed _ _ (node?_of_term? hterm)).parent _ hparent
    obtain ⟨upper, hupper⟩ := Option.isSome_iff_exists.1 hsome
    rw [(h.placed _ _ (node?_of_term? hterm)).paths _ rfl, hparent]
    simp only [Option.bind_some, hupper, Option.map_some, XPaths.below, ih hupper, List.map_append,
      List.map_cons, List.map_nil]
    rw [spelled_concat (by simpa using hchain.ne_nil), spelled_concat (by simpa using hchain.ne_nil)]
    simp only [String.append_assoc]

/-- The terms of a lineage are terms of the terminology, each under its own number. -/
theorem Lineage.term?_of_mem (h : t.Lineage id chain) (hcoherent : t.Coherent) {c : Term}
    (hc : c ∈ chain) : t.term? c.id = some c := by
  induction h with
  | outermost hterm _ =>
    obtain rfl := List.mem_singleton.1 hc
    rw [hcoherent.id_of_term? hterm, hterm]
  | inner hterm _ _ ih =>
    rcases List.mem_append.1 hc with hc | hc
    · exact ih hc
    · obtain rfl := List.mem_singleton.1 hc
      rw [hcoherent.id_of_term? hterm, hterm]

/-- The constrained path of a term is spelled by the relative paths and the constraints of its
lineage. -/
theorem Lineage.constrained_eq (h : t.Lineage id chain) (hcoherent : t.Coherent)
    (hterm : t.term? id = some term) :
    term.paths.constrained = spelled (chain.map fun c => c.paths.relative ++ c.traits.predicates) := by
  rw [Lineage.paths hcoherent h hterm]
  dsimp only
  congr 1
  refine List.map_congr_left fun c hc => ?_
  have hmem := h.term?_of_mem hcoherent hc
  obtain ⟨above, habove⟩ := hcoherent.exists_lineage hmem
  rw [Lineage.paths hcoherent habove hmem]

/-- No path is ever out of date: whatever was grafted, each term has the paths that its lineage
spells, detached terms included, and deriving paths anew changes nothing. -/
theorem Reached.paths_of_lineage (h : t.Reached) :
    (∀ id term, t.term? id = some term →
      ∃ chain, t.Lineage id chain ∧ (∀ other, t.Lineage id other → other = chain) ∧
        term.paths.absolute = "//" ++ "/".intercalate (chain.map fun c => c.traits.segment) ∧
        term.paths.constrained =
          "//" ++ "/".intercalate (chain.map fun c => c.traits.segment ++ c.traits.predicates) ∧
        term.paths.relative = term.traits.segment) ∧
      ∀ id, t.regenerate id = t := by
  refine ⟨fun id term hterm => ?_, h.coherent.regenerate_eq⟩
  obtain ⟨chain, hchain⟩ := h.coherent.exists_lineage hterm
  have hpaths := hchain.paths h.coherent hterm
  refine ⟨chain, hchain, fun _ => hchain.unique, ?_, ?_, ?_⟩
  · rw [hpaths]
    rfl
  · rw [hpaths]
    rfl
  · rw [hpaths]

/-- A term that a graft detached: the lineage of number 8 spells its path. -/
theorem Sample.paths_of_detached : Sample.grafted.Reached ∧
    ∃ chain, Sample.grafted.Lineage 8 chain ∧
      "//" ++ "/".intercalate (chain.map fun c => c.traits.segment ++ c.traits.predicates) =
        "//oxns:name[@type=\"personal\"]/oxns:role/oxns:roleTerm" := by
  refine ⟨reached_grafted, ?_⟩
  have hconstrained : (Sample.grafted.term? 8).map (·.paths.constrained) =
      some "//oxns:name[@type=\"personal\"]/oxns:role/oxns:roleTerm" := by decide +kernel
  obtain ⟨term, hterm, htext⟩ := Option.map_eq_some_iff.1 hconstrained
  obtain ⟨chain, hchain, -, -, hspelled, -⟩ :=
    (Reached.paths_of_lineage reached_grafted).1 8 term hterm
  exact ⟨chain, hchain, hspelled.symm.trans htext⟩

end TermAtlas.Terminology
