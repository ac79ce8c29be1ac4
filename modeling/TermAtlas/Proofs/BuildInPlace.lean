import TermAtlas.Proofs.Construction
import TermAtlas.Proofs.Unwinding
import TermAtlas.Terminology.BuildInPlace

/-!
# Building in place

Built in place, a terminology is there without its paths first: the roots that are constructed so far are
the layout of their trees, but for the paths, and each new root goes last, because the names of the roots
are apart. Then the loop derives paths from each root down. It goes depth first, and so do the numbers:
when the paths of a tree are derived, the nodes before its end have their paths and the others have none,
and the next tree begins there. When all trees are gone through, no paths are missing.

## What is proved

* `Declaration.state_forEach_constructRoot` — what is there when all roots are constructed.
* `Coherent.run_holdsAll` — what the loop does from all roots down.
* `Terminology.buildInPlace_eq` — building in place comes to an end, and gives and records the same as
  `build`; so for the roots of a registry and for a declaration alone.
-/

namespace TermAtlas

open StateTransition Work

variable {registry : Option Registry} {d : Declaration} {e : Expansion} {done es : List Expansion}

/-! ### Roots -/

namespace Terminology

theorem size_bare (t : Terminology) : t.bare.size = t.size := List.length_map _

/-- A tree that is laid out behind a forest and entered is one more tree of the forest. -/
theorem enterRoot_sketch (hname : e.name ∉ done.map Expansion.name) :
    ((ofForest done).bare.sketch none e).enterRoot ⟨e.name, (ofForest done).bare.size⟩ =
      (ofForest (done ++ [e])).bare := by
  have hnew : e.name ∉ Roster.names (Expansion.links 0 done) := by
    rwa [Expansion.names_links]
  have hput : Roster.put ⟨e.name, Expansion.sizeOfAll done⟩ (Expansion.links 0 done) =
      Expansion.links 0 (done ++ [e]) := by
    rw [Roster.put_of_not_mem hnew, Expansion.links_append, Nat.zero_add]
    rfl
  unfold enterRoot
  rw [sketch, size_bare, size_ofForest, bare, bare, ofForest, ofForest, Expansion.nodesOfAll_append,
    Expansion.nodesOfAll, Expansion.nodesOfAll, List.append_nil, List.map_append, Nat.zero_add, ← hput]

end Terminology

namespace Declaration

theorem outcome_constructRoot (d : Declaration) (t : Terminology) :
    (constructRoot registry d).outcome t = (fun _ => ()) <$> d.expand registry := by
  simp [constructRoot, outcome_bind, outcome_constructWithin, expand]

/-- If its name is new, a root that is constructed goes last. -/
theorem state_constructRoot (hregistry : ∀ r, registry = some r → r.Apart) (h : d.Apart)
    (hexpand : (d.expand registry).result = .ok e) (hname : d.name ∉ done.map Expansion.name) :
    (constructRoot registry d).state (Terminology.ofForest done).bare =
      (Terminology.ofForest (done ++ [e])).bare := by
  have hresult : ((d.constructWithin registry none
      (d.identities ++ (registry.map Registry.identities).getD []) []).outcome
        (Terminology.ofForest done).bare).result = .ok (Terminology.ofForest done).bare.size := by
    rw [outcome_constructWithin, Logged.result_map]
    exact congrArg (Except.map _) hexpand
  have hstate := state_constructWithin hregistry h hexpand (Terminology.ofForest done).bare none
  rw [Option.map_none] at hstate
  rw [← name_of_expandWithin hexpand] at hname
  rw [constructRoot, state_bind_of_ok hresult, state_change, hstate, ← name_of_expandWithin hexpand,
    Terminology.enterRoot_sketch hname]

/-- If the names of the roots are apart, constructing them adds them one by one. -/
theorem state_forEach_constructRoot (hregistry : ∀ r, registry = some r → r.Apart) {ds : List Declaration}
    (h : ∀ d ∈ ds, d.Apart)
    (hexpand : ds.map (fun d => (d.expand registry).result) = es.map Except.ok)
    (hnames : (done.map Expansion.name ++ Roster.names ds).Nodup) :
    (Work.forEach (constructRoot registry) ds).state (Terminology.ofForest done).bare =
      (Terminology.ofForest (done ++ es)).bare := by
  induction ds generalizing done es with
  | nil =>
    obtain rfl : es = [] := by simpa using hexpand.symm
    rw [List.append_nil]
    rfl
  | cons d rest ih =>
    obtain ⟨e, others, rfl, hone, hrest⟩ := List.map_eq_cons_iff.1 hexpand.symm
    have hd : (d.expand registry).result = .ok e := hone.symm
    have hnames' : ((done ++ [e]).map Expansion.name ++ Roster.names rest).Nodup := by
      rw [List.map_append, List.append_assoc, List.map_singleton, name_of_expandWithin hd]
      exact hnames
    have hnew : d.name ∉ done.map Expansion.name := by
      intro hmem
      exact (List.nodup_append.1 hnames).2.2 _ hmem _ List.mem_cons_self rfl
    have hresult : ((constructRoot registry d).outcome (Terminology.ofForest done).bare).result = .ok () := by
      rw [outcome_constructRoot, Logged.result_map, hd]
      rfl
    rw [Work.forEach, state_bind_of_ok hresult,
      state_constructRoot hregistry (h d List.mem_cons_self) hd hnew,
      ih (fun other hother => h other (List.mem_cons_of_mem _ hother)) hrest.symm hnames', List.append_assoc]
    rfl

end Declaration

/-! ### Paths -/

namespace Terminology

variable {t : Terminology} {start : Nat}

/-- From the first node of a tree down, the paths of the tree are derived. -/
theorem Coherent.eval_holds (h : t.Coherent) {above : Option (Nat × XPaths)} (hholds : t.Holds start above e)
    (log : List Event) :
    eval Unwinding.turn ⟨t.bareFrom start, [start], log⟩ =
      Part.some ⟨t.bareFrom (start + e.size), [], log ++ t.locations (List.range' start e.size)⟩ := by
  have hregenerate : (t.bareFrom start).regenerate start = t.bareFrom (start + e.size) := by
    rw [regenerate, subtree_bareFrom, hholds.subtree_eq h, h.toArranged.foldl_refresh_bareFrom]
  have hlocations : (t.bareFrom (start + e.size)).locations (List.range' start e.size) =
      t.locations (List.range' start e.size) := by
    refine locations_congr fun id hid => ?_
    have hlt := (List.mem_range'_1.1 hid).2
    rw [node?_bareFrom]
    simp [hlt]
  rw [h.toArranged.eval_turn (t.scope_bareFrom start), hregenerate, hholds.subtree_eq h, hlocations]

/-- From the first nodes of some trees down, the paths of all trees are derived. -/
theorem Coherent.run_holdsAll (h : t.Coherent) {above : Option (Nat × XPaths)}
    (hholds : t.HoldsAll start above es) (log : List Event) :
    Unwinding.run ⟨t.bareFrom start, [], log⟩ ((Expansion.links start es).map Link.node) =
      Part.some ⟨t.bareFrom (start + Expansion.sizeOfAll es), [],
        log ++ t.locations (List.range' start (Expansion.sizeOfAll es))⟩ := by
  induction es generalizing start log with
  | nil =>
    rw [Expansion.sizeOfAll, List.range'_zero, show t.locations [] = [] from rfl, List.append_nil]
    rfl
  | cons e rest ih =>
    obtain ⟨he, hrest⟩ := holdsAll_cons_iff.1 hholds
    rw [Expansion.links, List.map_cons, Unwinding.run, h.eval_holds he, Part.bind_some, ih hrest,
      Expansion.sizeOfAll, List.append_assoc, ← locations_append, List.range'_append_1, Nat.add_assoc]

theorem bareFrom_zero (t : Terminology) : t.bareFrom 0 = t.bare := by
  refine ext_node? rfl fun id => ?_
  rw [node?_bareFrom, node?_bare]
  rfl

/-! ### All in place -/

variable {ds : List Declaration} {forest : List Expansion}

/-- What is there when all roots are constructed. -/
theorem state_constructRoots (hregistry : ∀ r, registry = some r → r.Apart) (h : ∀ d ∈ ds, d.Apart)
    (hnames : (Roster.names ds).Nodup)
    (hforest : (Logged.traverse (fun d => d.expand registry) ds).result = .ok forest) :
    (Work.forEach (Declaration.constructRoot registry) ds).state default = (ofForest forest).bare := by
  have hnames' : (([] : List Expansion).map Expansion.name ++ Roster.names ds).Nodup := hnames
  have hstate := Declaration.state_forEach_constructRoot hregistry h
    (Logged.result_traverse_eq_ok_iff.1 hforest) hnames'
  exact hstate

/-- It stays like this when the proxies are checked. -/
theorem state_construct (hregistry : ∀ r, registry = some r → r.Apart) (h : ∀ d ∈ ds, d.Apart)
    (hnames : (Roster.names ds).Nodup)
    (hforest : (Logged.traverse (fun d => d.expand registry) ds).result = .ok forest) :
    (Work.construct registry ds).state default = (ofForest forest).bareFrom 0 := by
  have hresult : ((Work.forEach (Declaration.constructRoot registry) ds).outcome default).result = .ok () := by
    rw [outcome_forEach Declaration.outcome_constructRoot, Logged.result_map, hforest]
    rfl
  rw [Work.construct, state_bind_of_ok hresult, state_checkLinks,
    state_constructRoots hregistry h hnames hforest, bareFrom_zero]

/-- Constructing all roots fails when building does, and records the same up to then. -/
theorem outcome_construct (hregistry : ∀ r, registry = some r → r.Apart) (h : ∀ d ∈ ds, d.Apart)
    (hnames : (Roster.names ds).Nodup) : (Work.construct registry ds).outcome default = (do
      let forest ← Logged.traverse (fun d => d.expand registry) ds
      (ofForest forest).checkLinks) := by
  rw [Work.construct, outcome_bind, outcome_forEach Declaration.outcome_constructRoot, bind_map_left]
  refine Logged.bind_congr_of_result fun forest hforest => ?_
  rw [state_constructRoots hregistry h hnames hforest, outcome_checkLinks, checkLinks_bare]

/-- Building in place comes to an end, and gives and records the same as building. -/
theorem buildInPlace_eq (hregistry : ∀ r, registry = some r → r.Apart) (h : ∀ d ∈ ds, d.Apart)
    (hnames : (Roster.names ds).Nodup) : buildInPlace registry ds = Part.some (build registry ds) := by
  have houtcome := outcome_construct hregistry h hnames
  rw [buildInPlace, build]
  cases hforest : (Logged.traverse (fun d => d.expand registry) ds).result with
  | error e =>
    rw [Logged.bind_of_error hforest] at houtcome ⊢
    have hresult : ((Work.construct registry ds).outcome default).result = .error e := by rw [houtcome]
    rw [thenUnwind_of_error hresult, Part.map_some, houtcome]
    rfl
  | ok forest =>
    rw [Logged.bind_of_ok hforest] at houtcome ⊢
    dsimp only
    cases hlinks : (ofForest forest).checkLinks.result with
    | error e =>
      rw [hlinks] at houtcome
      have hresult : ((Work.construct registry ds).outcome default).result = .error e := by rw [houtcome]
      rw [Logged.bind_of_error hlinks, thenUnwind_of_error hresult, Part.map_some, houtcome]
      rfl
    | ok done =>
      rw [hlinks] at houtcome
      have hresult : ((Work.construct registry ds).outcome default).result = .ok () := by rw [houtcome]
      have hrun := (coherent_ofForest hlinks).run_holdsAll (holdsAll_ofForest forest)
        ((Work.construct registry ds).outcome default).log
      rw [Nat.zero_add, ← size_ofForest, bareFrom_size, ← List.range_eq_range'] at hrun
      rw [Logged.bind_of_ok hlinks, thenUnwind_of_ok hresult, state_construct hregistry h hnames hforest]
      show (Part.map _ (Unwinding.run _ ((Expansion.links 0 forest).map Link.node))).map _ = _
      rw [hrun, Part.map_some, Part.map_some, houtcome, Logged.bind_of_ok (Logged.result_notes _)]
      refine congrArg Part.some (Logged.ext ?_ rfl)
      simp [Logged.notes]

end Terminology

/-- So it is for all roots of a registry. -/
theorem Registry.Apart.buildInPlace_eq {r : Registry} (h : r.Apart) : r.buildInPlace = Part.some r.build := by
  have hregistry : ∀ other, some r = some other → other.Apart := by
    rintro _ ⟨⟩
    exact h
  rw [Registry.buildInPlace, Terminology.buildInPlace_eq hregistry h r.distinct, Part.map_some, Registry.build]

/-- And for a declaration alone. -/
theorem Declaration.Apart.buildInPlace_eq (h : d.Apart) (hregistry : ∀ r, registry = some r → r.Apart) :
    d.buildInPlace registry = Part.some (d.build registry) := by
  refine Terminology.buildInPlace_eq hregistry (fun other hother => ?_) (List.nodup_singleton _)
  rwa [List.mem_singleton.1 hother]

end TermAtlas
