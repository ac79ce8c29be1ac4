import TermAtlas.Proofs.Agreement
import TermAtlas.Proofs.Nesting

/-!
# Where references lead

The references of declarations, followed one after the other, make a way through the registry: `stop?` is where
one is after so many of them, and knows nothing of what was visited before. The way may end, at a declaration
without a reference or at a pointer that leads nowhere, or go on forever, and then the registry being finite it
comes back to where it has been. A chain is the way itself if it ends and no identity comes back on it; otherwise
it is refused at the first fault that is met.

A step of the way is a step of the chain as long as identities are new (`result_chainFrom_of_referred`), and so a
chain is known at the end of any walk that meets no identity twice (`Walk.result_chainFrom`). Every such walk can
be made longer until nothing new is met, since there are only so many identities (`exists_walk_of_chainFrom`).

## What is proved

* `Walk.route_eq`, `exists_walk_of_stop?` — walks are ways that are followed for a while.
* `nodup_route_iff` — no identity is met twice exactly if none comes back.
* `chain_iff_stops` — what the chain of a declaration is, or why there is none.
-/

namespace TermAtlas

namespace Declaration

/-- What `d` refers to: the declaration that the registry has at the pointer that the reference is read as. -/
def referred? (registry : Option Registry) (d : Declaration) : Option Declaration :=
  (d.settings.pointer? .reference).bind fun p => registry.bind fun r => (r.lookup p).toOption

/-- Where one is after following so many references. -/
def stop? (registry : Option Registry) : Declaration → Nat → Option Declaration
  | d, 0 => some d
  | d, count + 1 => (referred? registry d).bind fun target => stop? registry target count

/-- The first so many declarations on the way, `d` being the first. -/
def route (registry : Option Registry) (d : Declaration) (count : Nat) : List Declaration :=
  (List.range count).filterMap (stop? registry d)

/-- After so many references there is a declaration whose identity has been met before. -/
def ComesBack (registry : Option Registry) (d : Declaration) (count : Nat) : Prop :=
  ∃ target, stop? registry d count = some target ∧ target.id ∈ (route registry d count).map id

/-- `Walk registry d ts last`: the references lead from `d` through the declarations `ts`, where `last` is the
last of them all. -/
inductive Walk (registry : Option Registry) : Declaration → List Declaration → Declaration → Prop where
  /-- Staying at `d`. -/
  | nil {d : Declaration} : Walk registry d [] d
  /-- Going to what `d` refers to, and on from there. -/
  | cons {d target last : Declaration} {rest : List Declaration} : referred? registry d = some target →
      Walk registry target rest last → Walk registry d (target :: rest) last

/-- `Refuses registry met d e`: the way that has led through `met` to `d` cannot go on because of `e`. -/
inductive Refuses (registry : Option Registry) (met : List Declaration) (d : Declaration) : Error → Prop where
  /-- There is a reference, and nothing to look it up in. -/
  | noRegistry {p : Pointer} : d.settings.pointer? .reference = some p → registry = none →
      Refuses registry met d (.missingReferenceContext d.name)
  /-- The reference leads nowhere. -/
  | nowhere {p : Pointer} {r : Registry} {e : Error} : d.settings.pointer? .reference = some p →
      registry = some r → r.lookup p = .error e → Refuses registry met d (.badPointer d.name p)
  /-- The reference leads back. -/
  | back {target : Declaration} : referred? registry d = some target → target.id ∈ met.map id →
      Refuses registry met d (.circularReference ((met ++ [target]).map name))

variable {registry : Option Registry} {d target last : Declaration} {visited ts rest : List Declaration}
  {count : Nat} {e : Error}

theorem referred?_eq_some_iff : referred? registry d = some target ↔
    ∃ p r, d.settings.pointer? .reference = some p ∧ registry = some r ∧ r.lookup p = .ok target := by
  simp only [referred?, Option.bind_eq_some_iff]
  constructor
  · rintro ⟨p, hp, r, hr, htarget⟩
    cases hlookup : r.lookup p with
    | error e =>
      rw [hlookup] at htarget
      cases htarget
    | ok found =>
      rw [hlookup] at htarget
      obtain rfl : found = target := Option.some.inj htarget
      exact ⟨p, r, hp, hr, hlookup⟩
  · rintro ⟨p, r, hp, hr, hlookup⟩
    exact ⟨p, hp, r, hr, by rw [hlookup]; rfl⟩

/-! ### Walks -/

theorem Walk.concat (h : Walk registry d ts last) (htarget : referred? registry last = some target) :
    Walk registry d (ts ++ [target]) target := by
  induction h with
  | nil => exact .cons htarget .nil
  | cons hnext _ ih => exact .cons hnext (ih htarget)

/-- The last step of a walk. -/
theorem Walk.exists_concat (h : Walk registry d ts last) (hne : ts ≠ []) :
    ∃ front before, ts = front ++ [last] ∧ Walk registry d front before ∧
      referred? registry before = some last := by
  induction h with
  | nil => exact absurd rfl hne
  | @cons d target last rest hnext hrest ih =>
    by_cases hnil : rest = []
    · subst hnil
      cases hrest
      exact ⟨[], d, rfl, .nil, hnext⟩
    · obtain ⟨front, before, rfl, hfront, hlast⟩ := ih hnil
      exact ⟨target :: front, before, rfl, .cons hnext hfront, hlast⟩

theorem Walk.stop?_eq (h : Walk registry d ts last) : stop? registry d ts.length = some last := by
  induction h with
  | nil => rfl
  | cons hnext _ ih => rw [List.length_cons, stop?, hnext, Option.bind_some, ih]

/-- A walk goes through the first stops. -/
theorem Walk.route_eq (h : Walk registry d ts last) : route registry d (ts.length + 1) = d :: ts := by
  induction h with
  | nil => rfl
  | @cons d target last rest hnext _ ih =>
    have hshift : stop? registry d ∘ Nat.succ = stop? registry target := by
      funext count
      rw [Function.comp_apply, stop?, hnext, Option.bind_some]
    have hhere : stop? registry d 0 = some d := rfl
    rw [route, List.range_succ_eq_map, List.filterMap_cons_some hhere, List.filterMap_map, hshift,
      List.length_cons]
    exact congrArg _ ih

/-- Every stop is at the end of a walk. -/
theorem exists_walk_of_stop? (h : stop? registry d count = some last) :
    ∃ ts, ts.length = count ∧ Walk registry d ts last := by
  induction count generalizing d with
  | zero =>
    obtain rfl := Option.some.inj h
    exact ⟨[], rfl, .nil⟩
  | succ count ih =>
    obtain ⟨target, htarget, h⟩ := Option.bind_eq_some_iff.1 h
    obtain ⟨ts, rfl, hts⟩ := ih h
    exact ⟨target :: ts, rfl, .cons htarget hts⟩

theorem route_succ (registry : Option Registry) (d : Declaration) (count : Nat) :
    route registry d (count + 1) = route registry d count ++ (stop? registry d count).toList := by
  rw [route, List.range_succ, List.filterMap_append, ← route]
  cases h : stop? registry d count <;> simp [h]

/-- No identity is met twice exactly if none comes back. -/
theorem nodup_route_iff : ((route registry d count).map id).Nodup ↔
    ∀ earlier < count, ¬ ComesBack registry d earlier := by
  induction count with
  | zero => simp [route]
  | succ count ih =>
    have hlast : ((route registry d (count + 1)).map id).Nodup ↔
        ¬ ComesBack registry d count ∧ ((route registry d count).map id).Nodup := by
      rw [route_succ]
      cases hstop : stop? registry d count with
      | none => simp [ComesBack, hstop]
      | some target =>
        rw [Option.toList_some, List.map_append, List.map_singleton, ← List.concat_eq_append,
          List.nodup_concat]
        simp [ComesBack, hstop]
    rw [hlast, ih]
    constructor
    · rintro ⟨hhere, hbefore⟩ earlier hlt
      rcases Nat.lt_succ_iff_lt_or_eq.1 hlt with hlt | rfl
      · exact hbefore earlier hlt
      · exact hhere
    · intro hall
      exact ⟨hall count (Nat.lt_succ_self _), fun earlier hlt => hall earlier (Nat.lt_succ_of_lt hlt)⟩

/-! ### Chains along walks -/

/-- Where the reference is no pointer nothing is looked up; a value that is passed over is recorded. -/
theorem chainFrom_of_pointer?_eq_none (h : d.settings.pointer? .reference = none) :
    chainFrom registry visited d = ⟨((d.settings.get? .reference).map fun value =>
      Event.referenceIgnored d.name value.kind).toList, .ok []⟩ := by
  rw [chainFrom]
  split
  · next hvalue =>
    rw [hvalue]
    rfl
  · next value hvalue =>
    rw [Settings.pointer?, hvalue, Option.bind_some] at h
    rw [hvalue]
    split
    · rfl
    · next pointer hpointer => cases h.symm.trans hpointer

theorem result_chainFrom_of_registry_eq_none {p : Pointer} (h : d.settings.pointer? .reference = some p) :
    (chainFrom none visited d).result = .error (.missingReferenceContext d.name) := by
  rw [chainFrom]
  split
  · next hvalue =>
    rw [Settings.pointer?, hvalue] at h
    cases h
  · next value hvalue =>
    rw [Settings.pointer?, hvalue, Option.bind_some] at h
    split
    · next hpointer => cases h.symm.trans hpointer
    · rfl

/-- A step to a new identity is a step of the chain. -/
theorem result_chainFrom_of_referred (h : referred? registry d = some target)
    (hnew : target.id ∉ visited.map id) :
    (chainFrom registry visited d).result =
      (chainFrom registry (target :: visited) target).result.map (target :: ·) := by
  obtain ⟨p, r, hp, rfl, hlookup⟩ := referred?_eq_some_iff.1 h
  have hseen : ¬ target.isAmong visited = true := fun hseen => hnew (isAmong_iff.1 hseen)
  rw [result_chainFrom, hp]
  dsimp only
  rw [hlookup]
  exact if_neg hseen

/-- Where the way cannot go on there is no chain. -/
theorem Refuses.result_chainFrom (h : Refuses registry visited.reverse d e) :
    (chainFrom registry visited d).result = .error e := by
  cases h with
  | noRegistry hp hr =>
    subst hr
    exact result_chainFrom_of_registry_eq_none hp
  | nowhere hp hr hlookup =>
    subst hr
    rw [Declaration.result_chainFrom, hp]
    dsimp only
    rw [hlookup]
    rfl
  | @back target htarget hmem =>
    obtain ⟨p, r, hp, rfl, hlookup⟩ := referred?_eq_some_iff.1 htarget
    have hseen : target.isAmong visited = true := by
      rw [isAmong_iff]
      simpa using hmem
    rw [Declaration.result_chainFrom, hp, ← List.reverse_cons]
    dsimp only
    rw [hlookup]
    exact if_pos hseen

/-- At the end of a walk through new identities, what is left of the chain is that of the last declaration. -/
theorem Walk.result_chainFrom (h : Walk registry d ts last)
    (hnodup : ((visited.reverse ++ ts).map id).Nodup) :
    (chainFrom registry visited d).result =
      (chainFrom registry (ts.reverse ++ visited) last).result.map (ts ++ ·) := by
  induction h generalizing visited with
  | @nil d =>
    rw [List.reverse_nil, List.nil_append]
    cases (chainFrom registry visited d).result <;> rfl
  | @cons d target last rest hnext hrest ih =>
    have hmet : visited.reverse ++ target :: rest = (target :: visited).reverse ++ rest := by simp
    have hnew : target.id ∉ visited.map id := by
      rw [List.map_append, List.map_cons] at hnodup
      intro hmem
      refine (List.nodup_append.1 hnodup).2.2 _ ?_ _ List.mem_cons_self rfl
      rwa [List.map_reverse, List.mem_reverse]
    rw [hmet] at hnodup
    rw [result_chainFrom_of_referred hnext hnew, ih hnodup, List.reverse_cons, List.append_assoc,
      List.singleton_append]
    cases (chainFrom registry (rest.reverse ++ target :: visited) last).result <;> rfl

/-- The way ends, or it cannot go on, or it goes on to a new identity. -/
theorem ends_or_goes_on (registry : Option Registry) (met : List Declaration) (d : Declaration) :
    d.settings.pointer? .reference = none ∨ (∃ e, Refuses registry met d e) ∨
      ∃ target, referred? registry d = some target ∧ target.id ∉ met.map id := by
  cases hp : d.settings.pointer? .reference with
  | none => exact .inl rfl
  | some p =>
    refine .inr ?_
    cases hr : registry with
    | none => exact .inl ⟨_, .noRegistry hp rfl⟩
    | some r =>
      cases hlookup : r.lookup p with
      | error e => exact .inl ⟨_, .nowhere hp rfl hlookup⟩
      | ok target =>
        have htarget : referred? (some r) d = some target :=
          referred?_eq_some_iff.2 ⟨p, r, hp, rfl, hlookup⟩
        by_cases hmem : target.id ∈ met.map id
        · exact .inl ⟨_, .back htarget hmem⟩
        · exact .inr ⟨target, htarget, hmem⟩

/-- A walk through new identities can be made longer until there is nothing new: with each step there are fewer
identities left. -/
theorem exists_walk_of_chainFrom (registry : Option Registry) (d : Declaration)
    (hnodup : (visited.map id).Nodup) : ∃ ts last, Walk registry d ts last ∧
      ((visited.reverse ++ ts).map id).Nodup ∧ (last.settings.pointer? .reference = none ∨
        ∃ e, Refuses registry (visited.reverse ++ ts) last e) := by
  induction hlength : (unvisited registry visited).length using Nat.strongRecOn generalizing visited d with
  | _ length ih =>
    have hmet : ((visited.reverse ++ []).map id).Nodup := by simpa using hnodup
    rcases ends_or_goes_on registry (visited.reverse ++ []) d with hnone | hrefuses | ⟨target, htarget, hnew⟩
    · exact ⟨[], d, .nil, hmet, .inl hnone⟩
    · exact ⟨[], d, .nil, hmet, .inr hrefuses⟩
    · obtain ⟨p, r, hp, rfl, hlookup⟩ := referred?_eq_some_iff.1 htarget
      have hnew : target.id ∉ visited.map id := by simpa using hnew
      have hless := length_unvisited_lt hlookup (not_isAmong_iff.2 hnew)
      have hnodup' : ((target :: visited).map id).Nodup := List.nodup_cons.2 ⟨hnew, hnodup⟩
      obtain ⟨ts, last, hwalk, hnodup'', hend⟩ := ih _ (hlength ▸ hless) target hnodup' rfl
      have hmet : (target :: visited).reverse ++ ts = visited.reverse ++ target :: ts := by simp
      rw [hmet] at hnodup'' hend
      exact ⟨target :: ts, last, .cons htarget hwalk, hnodup'', hend⟩

/-! ### The chain of a declaration -/

/-- At the end of a walk through new identities, the chain is known. -/
theorem Walk.result_chain (h : Walk registry d ts last) (hnodup : ((d :: ts).map id).Nodup) :
    (d.chain registry).result = (chainFrom registry (d :: ts).reverse last).result.map (ts ++ ·) := by
  rw [List.reverse_cons]
  exact h.result_chainFrom hnodup

theorem Walk.result_chain_of_ends (h : Walk registry d ts last) (hnodup : ((d :: ts).map id).Nodup)
    (hend : last.settings.pointer? .reference = none) : (d.chain registry).result = .ok ts := by
  rw [h.result_chain hnodup, chainFrom_of_pointer?_eq_none hend, Except.map, List.append_nil]

theorem Walk.result_chain_of_refuses (h : Walk registry d ts last) (hnodup : ((d :: ts).map id).Nodup)
    (hrefuses : Refuses registry (d :: ts) last e) : (d.chain registry).result = .error e := by
  rw [← List.reverse_reverse (d :: ts)] at hrefuses
  rw [h.result_chain hnodup, hrefuses.result_chainFrom]
  rfl

/-- There is a way to the end, or to where it cannot go on, without an identity that is met twice. -/
theorem exists_walk_of_chain (registry : Option Registry) (d : Declaration) :
    ∃ ts last, Walk registry d ts last ∧ ((d :: ts).map id).Nodup ∧
      (last.settings.pointer? .reference = none ∨ ∃ e, Refuses registry (d :: ts) last e) := by
  have hnodup : ([d].map id).Nodup := List.nodup_singleton _
  exact exists_walk_of_chainFrom registry d hnodup

theorem chain_eq_ok_iff_walk : (d.chain registry).result = .ok ts ↔ ∃ last, Walk registry d ts last ∧
    ((d :: ts).map id).Nodup ∧ last.settings.pointer? .reference = none := by
  constructor
  · intro hok
    obtain ⟨way, last, hwalk, hnodup, hend | ⟨e, hrefuses⟩⟩ := exists_walk_of_chain registry d
    · obtain rfl := Except.ok.inj ((hwalk.result_chain_of_ends hnodup hend).symm.trans hok)
      exact ⟨last, hwalk, hnodup, hend⟩
    · cases (hwalk.result_chain_of_refuses hnodup hrefuses).symm.trans hok
  · rintro ⟨last, hwalk, hnodup, hend⟩
    exact hwalk.result_chain_of_ends hnodup hend

theorem chain_eq_error_iff_walk : (d.chain registry).result = .error e ↔ ∃ ts last,
    Walk registry d ts last ∧ ((d :: ts).map id).Nodup ∧ Refuses registry (d :: ts) last e := by
  constructor
  · intro herror
    obtain ⟨ts, last, hwalk, hnodup, hend | ⟨other, hrefuses⟩⟩ := exists_walk_of_chain registry d
    · cases (hwalk.result_chain_of_ends hnodup hend).symm.trans herror
    · obtain rfl := Except.error.inj ((hwalk.result_chain_of_refuses hnodup hrefuses).symm.trans herror)
      exact ⟨ts, last, hwalk, hnodup, hrefuses⟩
  · rintro ⟨ts, last, hwalk, hnodup, hrefuses⟩
    exact hwalk.result_chain_of_refuses hnodup hrefuses

/-- On the way of a walk no identity is met twice exactly if none comes back. -/
theorem Walk.nodup_iff (h : Walk registry d ts last) : ((d :: ts).map id).Nodup ↔
    ∀ count ≤ ts.length, ¬ ComesBack registry d count := by
  rw [← h.route_eq, nodup_route_iff]
  simp only [Nat.lt_succ_iff]

/-- A chain is the way to the end, where no identity comes back. -/
theorem chain_eq_ok_iff_route : (d.chain registry).result = .ok ts ↔
    (∃ last, stop? registry d ts.length = some last ∧ last.settings.pointer? .reference = none) ∧
      route registry d (ts.length + 1) = d :: ts ∧ ((d :: ts).map id).Nodup := by
  rw [chain_eq_ok_iff_walk]
  constructor
  · rintro ⟨last, hwalk, hnodup, hend⟩
    exact ⟨⟨last, hwalk.stop?_eq, hend⟩, hwalk.route_eq, hnodup⟩
  · rintro ⟨⟨last, hstop, hend⟩, hroute, hnodup⟩
    obtain ⟨way, hlength, hwalk⟩ := exists_walk_of_stop? hstop
    rw [← hlength, hwalk.route_eq, List.cons.injEq] at hroute
    obtain rfl := hroute.2
    exact ⟨last, hwalk, hnodup, hend⟩

/-- A chain is circular at the first identity that comes back. -/
theorem chain_eq_circular_iff {trail : List Name} :
    (d.chain registry).result = .error (.circularReference trail) ↔ ∃ count, ComesBack registry d count ∧
      (∀ earlier < count, ¬ ComesBack registry d earlier) ∧
      trail = (route registry d (count + 1)).map name := by
  rw [chain_eq_error_iff_walk]
  constructor
  · rintro ⟨ts, last, hwalk, hnodup, hrefuses⟩
    cases hrefuses with
    | @back target htarget hmem =>
      have hfurther := hwalk.concat htarget
      have hstop := hfurther.stop?_eq
      have hroute := hfurther.route_eq
      rw [List.length_append, List.length_singleton] at hstop hroute
      refine ⟨ts.length + 1, ⟨target, hstop, ?_⟩, fun earlier hlt => ?_, ?_⟩
      · rwa [hwalk.route_eq]
      · exact hwalk.nodup_iff.1 hnodup earlier (Nat.le_of_lt_succ hlt)
      · rw [hroute]
        rfl
  · rintro ⟨count, ⟨target, hstop, hmem⟩, hbefore, rfl⟩
    obtain ⟨way, rfl, hwalk⟩ := exists_walk_of_stop? hstop
    have hne : way ≠ [] := by
      rintro rfl
      simp [route] at hmem
    obtain ⟨ts, last, rfl, hts, htarget⟩ := hwalk.exists_concat hne
    rw [hwalk.route_eq]
    rw [List.length_append, List.length_singleton] at hmem hbefore
    rw [hts.route_eq] at hmem
    refine ⟨ts, last, hts, ?_, .back htarget hmem⟩
    exact hts.nodup_iff.2 fun earlier hle => hbefore earlier (Nat.lt_succ_of_le hle)

/-- A chain is broken at a pointer that leads nowhere, unless an identity comes back before. -/
theorem chain_eq_badPointer_iff {label : Name} {p : Pointer} :
    (d.chain registry).result = .error (.badPointer label p) ↔ ∃ count source r cause,
      stop? registry d count = some source ∧ source.settings.pointer? .reference = some p ∧
      registry = some r ∧ r.lookup p = .error cause ∧
      (∀ earlier ≤ count, ¬ ComesBack registry d earlier) ∧ label = source.name := by
  rw [chain_eq_error_iff_walk]
  constructor
  · rintro ⟨ts, last, hwalk, hnodup, hrefuses⟩
    cases hrefuses with
    | @nowhere _ r cause hp hr hlookup =>
      exact ⟨ts.length, last, r, cause, hwalk.stop?_eq, hp, hr, hlookup, hwalk.nodup_iff.1 hnodup, rfl⟩
  · rintro ⟨count, source, r, cause, hstop, hp, hr, hlookup, hbefore, rfl⟩
    obtain ⟨ts, rfl, hwalk⟩ := exists_walk_of_stop? hstop
    exact ⟨ts, source, hwalk, hwalk.nodup_iff.2 hbefore, .nowhere hp hr hlookup⟩

/-- Without a registry there is no way at all. -/
theorem chain_eq_missing_iff {label : Name} :
    (d.chain registry).result = .error (.missingReferenceContext label) ↔
      registry = none ∧ (∃ p, d.settings.pointer? .reference = some p) ∧ label = d.name := by
  rw [chain_eq_error_iff_walk]
  constructor
  · rintro ⟨ts, last, hwalk, hnodup, hrefuses⟩
    cases hrefuses with
    | @noRegistry p hp hr =>
      cases hwalk with
      | nil => exact ⟨hr, ⟨p, hp⟩, rfl⟩
      | cons hnext _ =>
        obtain ⟨-, r, -, hsome, -⟩ := referred?_eq_some_iff.1 hnext
        cases hr.symm.trans hsome
  · rintro ⟨hr, ⟨p, hp⟩, rfl⟩
    exact ⟨[], d, .nil, List.nodup_singleton _, .noRegistry hp hr⟩

/-- Where the reference is no pointer the chain is empty, and the registry does not matter. -/
theorem chain_of_pointer?_eq_none (h : d.settings.pointer? .reference = none) (other : Option Registry) :
    (d.chain registry).result = .ok [] ∧ d.chain registry = d.chain other := by
  rw [chain, chain, chainFrom_of_pointer?_eq_none h, chainFrom_of_pointer?_eq_none h]
  exact ⟨rfl, rfl⟩

/-- A chain is what the reference leads to, and then the chain of that. -/
theorem chain_of_chain_cons (h : (d.chain registry).result = .ok (target :: rest)) :
    referred? registry d = some target ∧ (target.chain registry).result = .ok rest := by
  obtain ⟨last, hwalk, hnodup, hend⟩ := chain_eq_ok_iff_walk.1 h
  cases hwalk with
  | cons hnext hrest =>
    rw [List.map_cons, List.nodup_cons] at hnodup
    exact ⟨hnext, chain_eq_ok_iff_walk.2 ⟨last, hrest, hnodup.2, hend⟩⟩

/-- The chain of a declaration is the way along its references, up to the first one without a reference, if no
identity comes back. It is circular at the first identity that does, broken at a pointer that leads nowhere if
none came back before, and without a registry there is a chain only if there is no reference; nothing else can
go wrong. Where there is no reference the registry does not matter, and a chain goes on with the chain of what
the reference leads to. -/
theorem chain_iff_stops (registry : Option Registry) (d : Declaration) :
    (∀ ts, (d.chain registry).result = .ok ts ↔
      (∃ last, stop? registry d ts.length = some last ∧ last.settings.pointer? .reference = none) ∧
        route registry d (ts.length + 1) = d :: ts ∧ ((d :: ts).map id).Nodup) ∧
    (∀ trail, (d.chain registry).result = .error (.circularReference trail) ↔
      ∃ count, ComesBack registry d count ∧ (∀ earlier < count, ¬ ComesBack registry d earlier) ∧
        trail = (route registry d (count + 1)).map name) ∧
    (∀ label p, (d.chain registry).result = .error (.badPointer label p) ↔ ∃ count source r cause,
      stop? registry d count = some source ∧ source.settings.pointer? .reference = some p ∧
        registry = some r ∧ r.lookup p = .error cause ∧
        (∀ earlier ≤ count, ¬ ComesBack registry d earlier) ∧ label = source.name) ∧
    (∀ label, (d.chain registry).result = .error (.missingReferenceContext label) ↔
      registry = none ∧ (∃ p, d.settings.pointer? .reference = some p) ∧ label = d.name) ∧
    (∀ e, (d.chain registry).result = .error e → (∃ trail, e = .circularReference trail) ∨
      (∃ label p, e = .badPointer label p) ∨ ∃ label, e = .missingReferenceContext label) ∧
    (d.settings.pointer? .reference = none → ∀ other,
      (d.chain registry).result = .ok [] ∧ d.chain registry = d.chain other) ∧
    ∀ target rest, (d.chain registry).result = .ok (target :: rest) →
      referred? registry d = some target ∧ (target.chain registry).result = .ok rest := by
  refine ⟨fun ts => chain_eq_ok_iff_route, fun trail => chain_eq_circular_iff, fun label p =>
    chain_eq_badPointer_iff, fun label => chain_eq_missing_iff, fun e herror => ?_,
    fun hnone other => chain_of_pointer?_eq_none hnone other, fun target rest => chain_of_chain_cons⟩
  obtain ⟨ts, last, -, -, hrefuses⟩ := chain_eq_error_iff_walk.1 herror
  cases hrefuses with
  | noRegistry => exact .inr (.inr ⟨_, rfl⟩)
  | nowhere => exact .inr (.inl ⟨_, _, rfl⟩)
  | back => exact .inl ⟨_, rfl⟩

end Declaration

namespace Terminology.Sample

open Declaration

/-- Persons, who are names, and two roots that refer to each other. -/
def referring : Registry where
  roots := [
    declaration 0 "name" [] [],
    declaration 1 "person" [(.reference, .pointer (pointer ["name"]))] [],
    declaration 2 "cause" [(.reference, .pointer (pointer ["effect"]))] [],
    declaration 3 "effect" [(.reference, .pointer (pointer ["cause"]))] []]
  distinct := by decide

/-- A declaration that leads into the circle without being on it. -/
def story : Declaration := declaration 4 "story" [(.reference, .pointer (pointer ["cause"]))] []

/-- A declaration with a chain of two. -/
def author : Declaration := declaration 5 "author" [(.reference, .pointer (pointer ["person"]))] []

/-- The chain of the story is circular at the third reference, where it is back at the cause. That of the author
goes on with that of the person. -/
theorem chain_of_story_and_author :
    (story.chain (some referring)).result =
      .error (.circularReference [⟨"story"⟩, ⟨"cause"⟩, ⟨"effect"⟩, ⟨"cause"⟩]) ∧
    (author.chain (some referring)).result = .ok [referring.roots[1], referring.roots[0]] ∧
    (referring.roots[1].chain (some referring)).result = .ok [referring.roots[0]] := by
  obtain ⟨-, hcircular, -⟩ := chain_iff_stops (some referring) story
  obtain ⟨hok, -, -, -, -, -, htail⟩ := chain_iff_stops (some referring) author
  have hback : ComesBack (some referring) story 3 := ⟨referring.roots[2], rfl, by decide +kernel⟩
  have hnew : ∀ earlier < 3, ¬ ComesBack (some referring) story earlier :=
    nodup_route_iff.1 (by decide +kernel)
  have hauthor := (hok [referring.roots[1], referring.roots[0]]).2
    ⟨⟨referring.roots[0], rfl, rfl⟩, rfl, by decide +kernel⟩
  exact ⟨(hcircular _).2 ⟨3, hback, hnew, rfl⟩, hauthor, (htail _ _ hauthor).2⟩

end Terminology.Sample

end TermAtlas
