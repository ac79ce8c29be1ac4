import Mathlib.Data.List.Perm.Basic
import TermAtlas.Proofs.Agreement
import TermAtlas.Proofs.Construction
import TermAtlas.Proofs.Renumbering

/-!
# The order of declarations

Roots are expanded one after the other, but each of them in view of the whole registry: a reference finds
the same declaration wherever it stands, and proxies are checked when all nodes are there. So the order in
which the roots are declared decides the numbers of nodes, and which of several errors is reported, but
nothing else. The forests that are laid out have the same trees in another order; entering the roots of the
one in the order of the other gives a terminology in between, which finds the same as the first and is the
same as the second but for numbers.

## What is proved

* `Declaration.expand_of_includedIn` — what is expanded in view of a registry is expanded in view of a
  larger one.
* `Arranged.reorder`, `mirrors_reorder` — entering the roots in another order.
* `exists_corresponds` — a forest in another order, laid out, is the same but for numbers.
* `Corresponds.retrieve?_eq`, `Corresponds.resolveProxy_eq`, `Corresponds.query?_same` — and so is what is
  looked up.
* `Registry.build_of_perm` — building the same roots in another order.
-/

namespace TermAtlas

/-! ### Larger registries -/

/-- All that is found in `r` is found in `r'`, too. -/
structure Registry.IncludedIn (r r' : Registry) : Prop where
  /-- Pointers find what they found. -/
  lookup : ∀ p d, r.lookup p = .ok d → r'.lookup p = .ok d
  /-- No identity is missing. -/
  identities : r.identities ⊆ r'.identities

variable {r r' : Registry} {d resolved : Declaration} {e : Expansion} {visited chain : List Declaration}
  {fresh fresh' : List Identity} {names : List Name}

/-- A traversal gives the same if each step does. -/
theorem result_traverse_of_each {α β : Type} {f g : α → Logged β} {items : List α} {results : List β}
    (hstep : ∀ a ∈ items, ∀ b, (f a).result = .ok b → (g a).result = .ok b)
    (h : (Logged.traverse f items).result = .ok results) :
    (Logged.traverse g items).result = .ok results := by
  rw [Logged.result_traverse_eq_ok_iff] at h ⊢
  rw [← h]
  refine List.map_congr_left fun a ha => ?_
  have hmem : (f a).result ∈ results.map Except.ok := h ▸ List.mem_map_of_mem ha
  obtain ⟨b, -, hb⟩ := List.mem_map.1 hmem
  rw [← hb, hstep a ha b hb.symm]

namespace Declaration

theorem chainFrom_of_includedIn (h : r.IncludedIn r')
    (hchain : (chainFrom (some r) visited d).result = .ok chain) :
    (chainFrom (some r') visited d).result = .ok chain := by
  -- the chain that was found is found again, one declaration after the other
  induction chain generalizing visited d with
  | nil =>
    obtain ⟨hreference, -⟩ | ⟨_, _, _, -, -, -, ⟨⟩, -⟩ := chainFrom_eq_ok_iff.1 hchain
    exact chainFrom_eq_ok_iff.2 (.inl ⟨hreference, rfl⟩)
  | cons target rest ih =>
    obtain ⟨-, ⟨⟩⟩ | ⟨pointer, _, _, hreference, hlookup, hnew, ⟨⟩, hrest⟩ := chainFrom_eq_ok_iff.1 hchain
    exact chainFrom_eq_ok_iff.2
      (.inr ⟨pointer, target, rest, hreference, h.lookup pointer target hlookup, hnew, rfl, ih hrest⟩)

theorem resolve_of_includedIn (h : r.IncludedIn r') (hresolve : (d.resolve (some r)).result = .ok resolved) :
    (d.resolve (some r')).result = .ok resolved := by
  obtain ⟨chain, hchain, himport⟩ := resolve_eq_ok_iff.1 hresolve
  exact resolve_eq_ok_iff.2 ⟨chain, chainFrom_of_includedIn h hchain, himport⟩

/-- What is expanded in view of a registry is expanded in view of a larger one. -/
theorem expandWithin_of_includedIn (h : r.IncludedIn r') (hfresh : fresh ⊆ fresh')
    (hexpand : (d.expandWithin (some r) fresh names).result = .ok e) :
    (d.expandWithin (some r') fresh' names).result = .ok e := by
  induction fresh, names, d using expandWithin.induct generalizing e fresh' with
  | case1 fresh names d hid ih =>
    rw [result_expandWithin, if_pos hid] at hexpand
    rw [result_expandWithin, if_pos (hfresh hid)]
    obtain ⟨resolved, hresolve, hexpand⟩ := bind_eq_ok_iff.1 hexpand
    refine bind_eq_ok_iff.2 ⟨resolved, resolve_of_includedIn h hresolve, ?_⟩
    cases hproxy : resolved.settings.pointer? .proxy with
    | some pointer =>
      rw [hproxy] at hexpand
      exact hexpand
    | none =>
      rw [hproxy] at hexpand
      obtain ⟨children, hchildren, rfl⟩ := Logged.result_map_eq_ok_iff.1 hexpand
      refine Logged.result_map_eq_ok_iff.2 ⟨children, ?_, rfl⟩
      have hless : d.id.without fresh ⊆ d.id.without fresh' := List.filter_subset _ hfresh
      exact result_traverse_of_each (fun child _ e he => ih child hless he) hchildren
  | case2 fresh names d hid =>
    rw [result_expandWithin, if_neg hid] at hexpand
    cases hexpand

theorem expand_of_includedIn (h : r.IncludedIn r') (hexpand : (d.expand (some r)).result = .ok e) :
    (d.expand (some r')).result = .ok e :=
  expandWithin_of_includedIn h (List.append_subset.2
    ⟨List.subset_append_left _ _, fun _ hid => List.mem_append_right _ (h.identities hid)⟩) hexpand

end Declaration

/-- A registry with all the roots of another one finds all that the other one does. -/
theorem Registry.includedIn_of_find?
    (h : ∀ name d, Roster.find? name r.roots = some d → Roster.find? name r'.roots = some d) :
    r.IncludedIn r' where
  lookup p d hlookup := by
    rw [Registry.lookup, fromRoot] at hlookup ⊢
    cases hsegments : p.segments with
    | nil =>
      rw [hsegments] at hlookup
      cases hlookup
    | cons first rest =>
      cases hroot : Roster.find? first r.roots with
      | none => simp [hsegments, hroot] at hlookup
      | some root => simpa [hsegments, hroot, h first root hroot] using hlookup
  identities id hid := by
    obtain ⟨d, hd, hid⟩ := Declaration.mem_identitiesOfAll.1 hid
    have hfound : Roster.find? d.name r.roots = some d := (Roster.find?_eq_some_iff r.distinct).2 ⟨hd, rfl⟩
    exact Declaration.mem_identitiesOfAll.2 ⟨d, Roster.mem_of_find? (h _ d hfound), hid⟩

/-- The same roots in another order find the same. -/
theorem Registry.includedIn_of_perm (h : r.roots.Perm r'.roots) : r.IncludedIn r' :=
  includedIn_of_find? fun name _ hfound => (Roster.find?_eq_of_perm h r.distinct name).trans hfound

/-! ### Roots in another order -/

namespace Terminology

/-- The terminology with its roots entered in another order. -/
def reorder (t : Terminology) (links : List Link) : Terminology := { t with roots := links }

variable {t t' : Terminology} {links : List Link} {ρ : Nat → Nat} {id : Nat} {forest forest' : List Expansion}

theorem Arranged.reorder (h : t.Arranged) (hperm : t.roots.Perm links) : (t.reorder links).Arranged where
  placed id node hnode := by
    have hplaced := h.placed id node hnode
    exact ⟨hplaced.id_eq, hplaced.parent, hplaced.entry, hplaced.nodup, hplaced.paths⟩
  root link hlink := h.root link (hperm.mem_iff.2 hlink)
  nodup_roots := (hperm.map _).nodup_iff.1 h.nodup_roots

/-- The same is found among the roots. -/
theorem child?_reorder (hperm : t.roots.Perm links) (hnodup : (Roster.names t.roots).Nodup) (name : Name) :
    (t.reorder links).child? none name = t.child? none name :=
  congrArg (Option.map Link.node) (Roster.find?_eq_of_perm hperm hnodup name)

/-- So everything looks the same. -/
theorem mirrors_reorder (hperm : t.roots.Perm links) (hnodup : (Roster.names t.roots).Nodup) :
    t.Mirrors (fun id => id) (fun _ => True) (t.reorder links) := by
  refine mirrors_of_same (fun id => ?_) (child?_reorder hperm hnodup)
  change Option.Rel _ (t.node? id) (t.node? id)
  cases t.node? id with
  | none => exact .none
  | some node => exact .some node.mirrors_self

theorem linked_reorder_iff (hperm : t.roots.Perm links) : (t.reorder links).Linked id ↔ t.Linked id := by
  constructor
  · intro h
    induction h with
    | root hlink => exact .root (hperm.mem_iff.2 hlink)
    | child _ hlink ih => exact .child ih hlink
  · intro h
    induction h with
    | root hlink => exact .root (t := t.reorder links) (hperm.mem_iff.1 hlink)
    | @child id link _ hlink ih =>
      have hlink' : link ∈ (t.reorder links).scope (some id) := hlink
      exact .child ih hlink'

/-- Each tree of a forest that is laid out is where its link leads. -/
theorem HoldsAll.forall₂ {start : Nat} {above : Option (Nat × XPaths)} (h : t.HoldsAll start above forest) :
    List.Forall₂ (fun link e => link.name = e.name ∧ t.Holds link.node above e)
      (Expansion.links start forest) forest := by
  induction forest generalizing start with
  | nil => exact .nil
  | cons e rest ih =>
    obtain ⟨he, hrest⟩ := holdsAll_cons_iff.1 h
    exact .cons ⟨rfl, he⟩ (ih hrest)

theorem showsAll_of_forall₂ {above : Option (Nat × XPaths)}
    (h : List.Forall₂ (fun link e => link.name = e.name ∧ t.Holds link.node above e) links forest) :
    t.ShowsAll (above.map (·.1)) links forest := by
  induction h with
  | nil => exact .nil
  | cons hlink _ ih => exact .cons hlink.1 hlink.2.shows ih

/-- A forest that is laid out shows the same trees in another order, if its roots are entered in that
order. -/
theorem exists_reorder (hperm : forest.Perm forest') : ∃ links, (ofForest forest).roots.Perm links ∧
    ((ofForest forest).reorder links).ShowsAll none links forest' := by
  have hlinks := (holdsAll_ofForest forest).forall₂
  obtain ⟨links, hperm', hlinks'⟩ :
      Relation.Comp List.Perm (List.Forall₂ _) (Expansion.links 0 forest) forest' := by
    rw [← List.forall₂_comp_perm_eq_perm_comp_forall₂]
    exact ⟨forest, hlinks, hperm⟩
  exact ⟨links, hperm', showsAll_of_forall₂ (t := (ofForest forest).reorder links) hlinks'⟩

/-! ### The same but for numbers -/

/-- Nodes that are the same but for numbers, and the same roots in whatever order. -/
structure Corresponds (ρ : Nat → Nat) (t t' : Terminology) : Prop where
  /-- Each node is the same. -/
  node : ∀ id, t.Linked id → t'.node? (ρ id) = (t.node? id).map (Node.renumber ρ)
  /-- Looking up finds the same. -/
  mirrors : t.Mirrors ρ t.InReach t'

theorem Corresponds.term?_eq (h : Corresponds ρ t t') (hid : t.Linked id) :
    t'.term? (ρ id) = (t.term? id).map (Term.renumber ρ) := by
  rw [term?, term?, h.node id hid]
  cases t.node? id with
  | none => rfl
  | some node => cases node <;> rfl

theorem Corresponds.resolveProxy_eq (h : Corresponds ρ t t') (hid : t.Linked id) :
    t'.resolveProxy (ρ id) = (t.resolveProxy id).map (Term.renumber ρ) := by
  obtain ⟨hfollow, hlinked⟩ := h.mirrors.follow_eq hid
  rw [resolveProxy, resolveProxy, hfollow]
  cases htarget : t.follow id with
  | error e => rfl
  | ok target =>
    obtain ⟨term, hterm⟩ := exists_term_of_followWithin htarget
    have hterm' := h.term?_eq (hlinked target htarget)
    rw [hterm] at hterm'
    simp only [Except.map, hterm, hterm', Option.map_some]

theorem Corresponds.retrieve?_eq (h : Corresponds ρ t t') (p : Pointer) :
    t'.retrieve? p = (t.retrieve? p).map (Term.renumber ρ) := by
  have hroots : t.InReach none := trivial
  obtain ⟨hlocate, hlinked⟩ := h.mirrors.locate_eq hroots p
  rw [Option.map_none] at hlocate
  rw [retrieve?, retrieve?, retrieveIn?, retrieveIn?, hlocate]
  cases htarget : t.locate none p with
  | error e => rfl
  | ok target => exact h.term?_eq (hlinked target htarget)

theorem Corresponds.query?_same (h : Corresponds ρ t t') (p : IndexedPointer) : t'.query? p = t.query? p := by
  have hroots : t.InReach none := trivial
  have htext : ∀ id, t.InReach (some id) →
      (t'.term? (ρ id)).map Term.stepText = (t.term? id).map Term.stepText := by
    intro id hid
    rw [h.term?_eq hid, Option.map_map]
    rfl
  have htexts := h.mirrors.queryTexts_eq htext hroots hroots p.steps
  rw [Option.map_none] at htexts
  rw [query?, query?, htexts]

/-- The forest in another order, laid out, is the same but for numbers. -/
theorem exists_corresponds (hcoherent : (ofForest forest).Coherent)
    (hnodup : (Roster.names (ofForest forest).roots).Nodup) (hperm : forest.Perm forest') :
    (ofForest forest').checkLinks.result = .ok () ∧
      ∃ ρ, Corresponds ρ (ofForest forest) (ofForest forest') := by
  -- the terminology in between has the nodes of the one, entered in the order of the other
  obtain ⟨links, hlinks, hshows⟩ := exists_reorder hperm
  have harranged := hcoherent.toArranged.reorder hlinks
  have hsame := mirrors_reorder hlinks hnodup
  have hrenumbers := harranged.renumbers_ofForest hshows
  constructor
  · refine (harranged.checkLinks_ofForest_iff hshows).2 fun id proxy _ hnode => ?_
    have hnode' : (ofForest forest).node? id = some (.proxy proxy) := hnode
    exact (hsame.resolves_iff trivial).2 (hcoherent.exists_resolveProxy hnode')
  · have hmirrors := hrenumbers.mirrors harranged
    have hlinked : ∀ id, (ofForest forest).Linked id → ((ofForest forest).reorder links).Linked id :=
      fun _ => (linked_reorder_iff hlinks).2
    refine ⟨_, fun id hid => hrenumbers.node id (hlinked id hid), ?_⟩
    exact {
      node := fun id hid => hmirrors.node id (hlinked id hid)
      missing := fun id hid hnone => hmirrors.missing id (hlinked id hid) hnone
      root := fun _ name => by
        rw [← child?_reorder hlinks hnodup]
        exact hmirrors.root trivial name
      below := fun _ _ _ hscope hchild => linked_of_child? hscope hchild
      above := fun _ _ hid hnode => Linked.inReach hid hcoherent.toArranged hnode
      injective := fun id other hid hother =>
        hmirrors.injective id other (hlinked id hid) (hlinked other hother) }

end Terminology

/-! ### Building in another order -/

/-- What succeeds for each item, one by one. -/
theorem map_eq_map_ok_iff_forall₂ {α β ε : Type} {f : α → Except ε β} {items : List α} {results : List β} :
    items.map f = results.map Except.ok ↔ List.Forall₂ (fun a b => f a = .ok b) items results := by
  rw [← List.forall₂_eq_eq_eq, List.forall₂_map_left_iff, List.forall₂_map_right_iff]

namespace Registry

/-- The same roots in another order are built as a terminology that is the same but for numbers. -/
theorem exists_build_of_perm {t : Terminology} (h : r.roots.Perm r'.roots) (hbuild : r.build.result = .ok t) :
    ∃ t', r'.build.result = .ok t' ∧ ∃ ρ, Terminology.Corresponds ρ t t' := by
  have hcoherent := (Terminology.Reached.built hbuild).coherent
  obtain ⟨forest, hforest, rfl, -⟩ := Terminology.build_eq_ok_iff.1 (build_eq_ok_iff.1 hbuild)
  have hnodup : (Roster.names (Terminology.ofForest forest).roots).Nodup := by
    rw [Terminology.ofForest, Expansion.names_links, Declaration.map_name_of_expanded hforest]
    exact r.distinct
  obtain ⟨forest', hexpands, hperm⟩ := List.perm_comp_forall₂ h.symm (map_eq_map_ok_iff_forall₂.1 hforest)
  have hforest' : r'.roots.map (fun d => (d.expand (some r')).result) = forest'.map Except.ok :=
    map_eq_map_ok_iff_forall₂.2 (hexpands.imp fun d e he =>
      Declaration.expand_of_includedIn (includedIn_of_perm h) he)
  obtain ⟨hlinks, hcorresponds⟩ := Terminology.exists_corresponds hcoherent hnodup hperm.symm
  exact ⟨_, build_eq_ok_iff.2 (Terminology.build_eq_ok_iff.2 ⟨forest', hforest', rfl, hlinks⟩), hcorresponds⟩

/-- Roots can be declared in any order. They can be built in the one exactly if they can be built in the
other, and what is built then is the same but for numbers: roots are found under the same names, what the
roots lead to are the same terms and proxies, proxies stand for the same terms, and pointers and indexed
pointers lead to the same places. -/
theorem build_of_perm (h : r.roots.Perm r'.roots) :
    ((∃ t, r.build.result = .ok t) ↔ ∃ t', r'.build.result = .ok t') ∧
    ∀ t t', r.build.result = .ok t → r'.build.result = .ok t' → ∃ ρ : Nat → Nat,
      (∀ a ∈ t.walk, ∀ b ∈ t.walk, ρ a = ρ b → a = b) ∧
      (∀ name, t'.child? none name = (t.child? none name).map ρ) ∧
      (∀ id ∈ t.walk, t'.node? (ρ id) = (t.node? id).map (Node.renumber ρ) ∧
        t'.resolveProxy (ρ id) = (t.resolveProxy id).map (Term.renumber ρ)) ∧
      (∀ p, t'.retrieve? p = (t.retrieve? p).map (Term.renumber ρ)) ∧
      ∀ p, t'.query? p = t.query? p := by
  constructor
  · constructor
    · rintro ⟨t, hbuild⟩
      obtain ⟨t', hbuild', -⟩ := exists_build_of_perm h hbuild
      exact ⟨t', hbuild'⟩
    · rintro ⟨t', hbuild'⟩
      obtain ⟨t, hbuild, -⟩ := exists_build_of_perm h.symm hbuild'
      exact ⟨t, hbuild⟩
  · intro t t' hbuild hbuild'
    have harranged := (Terminology.Reached.built hbuild).coherent.toArranged
    obtain ⟨_, hother, ρ, hcorresponds⟩ := exists_build_of_perm h hbuild
    obtain rfl := Except.ok.inj (hother.symm.trans hbuild')
    have hroots : t.InReach none := trivial
    refine ⟨ρ, fun a ha b hb => ?_, hcorresponds.mirrors.child?_eq hroots, fun id hid => ?_,
      hcorresponds.retrieve?_eq, hcorresponds.query?_same⟩
    · exact hcorresponds.mirrors.injective a b (harranged.mem_walk_iff.1 ha) (harranged.mem_walk_iff.1 hb)
    · have hlinked := harranged.mem_walk_iff.1 hid
      exact ⟨hcorresponds.node id hlinked, hcorresponds.resolveProxy_eq hlinked⟩

end Registry

namespace Terminology.Sample

/-- The registry with its roots the other way round. -/
def reversed : Registry where
  roots := registry.roots.reverse
  distinct := by decide

/-- What is built of it. -/
def builtReversed : Terminology := reversed.build.result.toOption.get (by decide +kernel)

/-- The role of persons, which refer to names, is then built first. -/
theorem build_of_reversed : registry.roots.Perm reversed.roots ∧
    reversed.build.result = .ok builtReversed ∧ builtReversed.child? none ⟨"role"⟩ = some 0 ∧
      (∀ p, (builtReversed.retrieve? p).map Term.paths = (built.retrieve? p).map Term.paths) ∧
      ∀ p, builtReversed.query? p = built.query? p := by
  have hperm : registry.roots.Perm reversed.roots := (List.reverse_perm _).symm
  have hbuild : reversed.build.result = .ok builtReversed := eq_ok_get _
  obtain ⟨-, hsame⟩ := Registry.build_of_perm hperm
  obtain ⟨ρ, -, -, -, hretrieve, hquery⟩ := hsame built builtReversed result_build hbuild
  refine ⟨hperm, hbuild, by decide +kernel, fun p => ?_, hquery⟩
  rw [hretrieve, Option.map_map]
  rfl

end Terminology.Sample

end TermAtlas
