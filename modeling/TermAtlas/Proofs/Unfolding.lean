import Mathlib.Data.Set.Finite.Lattice
import Mathlib.Order.Preorder.Finite
import TermAtlas.Proofs.Chains
import TermAtlas.Proofs.Family
import TermAtlas.Proofs.Nesting

/-!
# Expansions without end

A declaration is refused below a copy of itself, because its expansion would not come to an end. Where every
identity is at one place of the registry this guard is exact. What is met below itself is the very same
declaration, and everything that led from the one to the other leads on from there, again and again; so the guard
stops nothing that has an end. And an expansion that has no end cannot be built.

The expansion without a guard is known by the ways down from a declaration, `Descent`: there are infinitely many
of them exactly if there is no end.

## What is proved

* `expandWithin_eq_ok_iff_completes`, `expandWithin_eq_error_iff_halts` — what an expansion comes to, and where it
  stops.
* `Descent.append`, `Descent.split` — ways down can be joined, and cut in two.
* `endless_of_loop` — a way from a declaration down to itself can be gone without end.
* `finite_positions` — a tree has an end.
* `Registry.guard_iff_endless` — why a registry cannot be built, and when the guard is the reason.
-/

namespace TermAtlas

namespace Declaration

/-! ### Where an expansion stops -/

/-- What can stop an expansion. -/
inductive Obstacle where
  /-- The identity of a declaration is in progress above it. -/
  | repeated
  /-- A declaration cannot be resolved. -/
  | unresolved (e : Error)

/-- What is reported if the declarations in progress are these. -/
def Obstacle.error (trail : List Declaration) : Obstacle → Error
  | repeated => .circularReference (trail.map name)
  | unresolved e => e

/-- `Completes registry above d`: the expansion of `d` below the declarations `above` comes to an end, and meets
no identity that is in progress. -/
inductive Completes (registry : Option Registry) : List Declaration → Declaration → Prop where
  /-- A proxy has nothing below it. -/
  | proxy {above : List Declaration} {d resolved : Declaration} {pointer : Pointer} : d.id ∉ above.map id →
      (d.resolve registry).result = .ok resolved → resolved.settings.pointer? .proxy = some pointer →
      Completes registry above d
  /-- All children of a term complete. -/
  | term {above : List Declaration} {d resolved : Declaration} : d.id ∉ above.map id →
      (d.resolve registry).result = .ok resolved → resolved.settings.pointer? .proxy = none →
      (∀ child ∈ resolved.children, Completes registry (above ++ [d]) child) → Completes registry above d

/-- `Halts registry above d trail obstacle`: the expansion of `d` below the declarations `above` stops at an
obstacle, where the declarations of `trail` are in progress, `d` first. -/
inductive Halts (registry : Option Registry) :
    List Declaration → Declaration → List Declaration → Obstacle → Prop where
  /-- The identity of `d` is in progress above it. -/
  | repeated {above : List Declaration} {d : Declaration} : d.id ∈ above.map id →
      Halts registry above d [d] .repeated
  /-- It is not, but `d` cannot be resolved. -/
  | unresolved {above : List Declaration} {d : Declaration} {e : Error} : d.id ∉ above.map id →
      (d.resolve registry).result = .error e → Halts registry above d [d] (.unresolved e)
  /-- A child is stopped, and the children before it complete. -/
  | deeper {above trail before after : List Declaration} {d resolved child : Declaration} {obstacle : Obstacle} :
      d.id ∉ above.map id → (d.resolve registry).result = .ok resolved →
      resolved.settings.pointer? .proxy = none → resolved.children = before ++ child :: after →
      (∀ other ∈ before, Completes registry (above ++ [d]) other) →
      Halts registry (above ++ [d]) child trail obstacle → Halts registry above d (d :: trail) obstacle

/-- The expansion without a guard has no end: there are infinitely many ways down. -/
def Endless (registry : Option Registry) (d : Declaration) : Prop :=
  {path | ∃ trail, Descent registry d path trail}.Infinite

/-- What may still be expanded at `d` is what is not in progress above it. -/
structure Allots (registry : Option Registry) (known fresh : List Identity) (above : List Declaration)
    (d : Declaration) : Prop where
  /-- The identities of the registry are known. -/
  of_registry : ∀ r, registry = some r → r.identities ⊆ known
  /-- So are those of `d`. -/
  own : d.identities ⊆ known
  /-- Those may be expanded that are not in progress. -/
  mem_fresh : ∀ i ∈ known, i ∈ fresh ↔ i ∉ above.map id

variable {registry : Option Registry} {r : Registry} {d target resolved x last : Declaration}
  {ds above trail front back : List Declaration} {known fresh : List Identity} {names : List Name}
  {path loop more : List Nat} {obstacle : Obstacle} {e : Error}

theorem Allots.fresh_iff (h : Allots registry known fresh above d) : d.id ∈ fresh ↔ d.id ∉ above.map id :=
  h.mem_fresh d.id (h.own d.id_mem_identities)

/-- What may be expanded below `d` are the others. -/
theorem Allots.child (h : Allots registry known fresh above d)
    (hresolve : (d.resolve registry).result = .ok resolved) {child : Declaration}
    (hchild : child ∈ resolved.children) :
    Allots registry known (d.id.without fresh) (above ++ [d]) child where
  of_registry := h.of_registry
  own := identities_subset_of_resolve h.of_registry h.own hresolve child hchild
  mem_fresh i hi := by
    rw [Identity.mem_without, h.mem_fresh i hi, List.map_append, List.map_singleton, List.mem_append,
      List.mem_singleton, not_or]

theorem allots_expand (registry : Option Registry) (d : Declaration) :
    Allots registry (d.identities ++ (registry.map Registry.identities).getD [])
      (d.identities ++ (registry.map Registry.identities).getD []) [] d where
  of_registry := by
    rintro r rfl
    exact List.subset_append_right _ _
  own := List.subset_append_left _ _
  mem_fresh i hi := iff_of_true hi List.not_mem_nil

theorem result_expandWithin_unresolved (hid : d.id ∈ fresh) (hresolve : (d.resolve registry).result = .error e) :
    (expandWithin registry fresh names d).result = .error e := by
  rw [result_expandWithin, if_pos hid, hresolve]
  rfl

theorem result_expandWithin_proxy {pointer : Pointer} (hid : d.id ∈ fresh)
    (hresolve : (d.resolve registry).result = .ok resolved)
    (hpointer : resolved.settings.pointer? .proxy = some pointer) :
    (expandWithin registry fresh names d).result = .ok (.proxy d.name pointer resolved.settings) := by
  rw [result_expandWithin, if_pos hid, hresolve]
  dsimp only [bind, Except.bind]
  rw [hpointer]

/-- What comes of a term is what comes of its children. -/
theorem result_expandWithin_term (hid : d.id ∈ fresh) (hresolve : (d.resolve registry).result = .ok resolved)
    (hpointer : resolved.settings.pointer? .proxy = none) : (expandWithin registry fresh names d).result =
      (Logged.traverse (expandWithin registry (d.id.without fresh) (names ++ [d.name]))
        resolved.children).result.map (.term d.name (Traits.ofSettings d.name resolved.settings)) := by
  rw [result_expandWithin, if_pos hid, hresolve]
  dsimp only [bind, Except.bind]
  rw [hpointer]

theorem exists_expandWithin_term_iff (hid : d.id ∈ fresh) (hresolve : (d.resolve registry).result = .ok resolved)
    (hpointer : resolved.settings.pointer? .proxy = none) :
    (∃ e, (expandWithin registry fresh names d).result = .ok e) ↔ ∀ child ∈ resolved.children,
      ∃ e, (expandWithin registry (d.id.without fresh) (names ++ [d.name]) child).result = .ok e := by
  rw [result_expandWithin_term hid hresolve hpointer, ← Logged.exists_result_traverse_iff]
  cases (Logged.traverse _ _).result <;> simp [Except.map]

theorem expandWithin_term_eq_error_iff (hid : d.id ∈ fresh)
    (hresolve : (d.resolve registry).result = .ok resolved)
    (hpointer : resolved.settings.pointer? .proxy = none) :
    (expandWithin registry fresh names d).result = .error e ↔ ∃ before child after,
      resolved.children = before ++ child :: after ∧ (∀ other ∈ before, ∃ e,
        (expandWithin registry (d.id.without fresh) (names ++ [d.name]) other).result = .ok e) ∧
      (expandWithin registry (d.id.without fresh) (names ++ [d.name]) child).result = .error e := by
  rw [result_expandWithin_term hid hresolve hpointer, ← Logged.result_traverse_eq_error_iff]
  cases (Logged.traverse _ _).result <;> simp [Except.map]

theorem map_name_concat (above : List Declaration) (d : Declaration) :
    (above ++ [d]).map name = above.map name ++ [d.name] := by
  rw [List.map_append, List.map_singleton]

theorem Completes.id_not_mem (h : Completes registry above d) : d.id ∉ above.map id := by
  cases h with
  | proxy hnew => exact hnew
  | term hnew => exact hnew

theorem completes_term_iff (hnew : d.id ∉ above.map id) (hresolve : (d.resolve registry).result = .ok resolved)
    (hpointer : resolved.settings.pointer? .proxy = none) : Completes registry above d ↔
      ∀ child ∈ resolved.children, Completes registry (above ++ [d]) child := by
  constructor
  · intro h
    cases h with
    | proxy _ hresolve' hpointer' =>
      obtain rfl := Except.ok.inj (hresolve'.symm.trans hresolve)
      cases hpointer'.symm.trans hpointer
    | term _ hresolve' _ hchildren =>
      obtain rfl := Except.ok.inj (hresolve'.symm.trans hresolve)
      exact hchildren
  · exact .term hnew hresolve hpointer

/-- A proxy that can be resolved stops nothing. -/
theorem not_halts_of_proxy {pointer : Pointer} (hnew : d.id ∉ above.map id)
    (hresolve : (d.resolve registry).result = .ok resolved)
    (hpointer : resolved.settings.pointer? .proxy = some pointer) : ¬ Halts registry above d trail obstacle := by
  intro h
  cases h with
  | repeated hmem => exact hnew hmem
  | unresolved _ hresolve' => cases hresolve.symm.trans hresolve'
  | deeper _ hresolve' hpointer' =>
    obtain rfl := Except.ok.inj (hresolve'.symm.trans hresolve)
    cases hpointer'.symm.trans hpointer

/-- An expansion stops below a term exactly if it stops below one of the children, and not before. -/
theorem halts_term_iff (hnew : d.id ∉ above.map id) (hresolve : (d.resolve registry).result = .ok resolved)
    (hpointer : resolved.settings.pointer? .proxy = none) : Halts registry above d trail obstacle ↔
      ∃ before child after rest, resolved.children = before ++ child :: after ∧
        (∀ other ∈ before, Completes registry (above ++ [d]) other) ∧
        Halts registry (above ++ [d]) child rest obstacle ∧ trail = d :: rest := by
  constructor
  · intro h
    cases h with
    | repeated hmem => exact absurd hmem hnew
    | unresolved _ hresolve' => cases hresolve.symm.trans hresolve'
    | @deeper _ rest before after _ _ child _ _ hresolve' _ hchildren hbefore hhalts =>
      obtain rfl := Except.ok.inj (hresolve'.symm.trans hresolve)
      exact ⟨before, child, after, rest, hchildren, hbefore, hhalts, rfl⟩
  · rintro ⟨before, child, after, rest, hchildren, hbefore, hhalts, rfl⟩
    exact .deeper hnew hresolve hpointer hchildren hbefore hhalts

/-- A declaration is expanded exactly if the expansion completes. -/
theorem expandWithin_eq_ok_iff_completes (h : Allots registry known fresh above d) :
    (∃ e, (expandWithin registry fresh names d).result = .ok e) ↔ Completes registry above d := by
  induction fresh, names, d using expandWithin.induct generalizing above with
  | case1 fresh names d hid ih =>
    have hnew := h.fresh_iff.1 hid
    cases hresolve : (d.resolve registry).result with
    | error cause =>
      rw [result_expandWithin_unresolved hid hresolve]
      refine iff_of_false ?_ fun hcompletes => ?_
      · rintro ⟨_, ⟨⟩⟩
      · cases hcompletes with
        | proxy _ hresolve' => cases hresolve.symm.trans hresolve'
        | term _ hresolve' => cases hresolve.symm.trans hresolve'
    | ok resolved =>
      cases hpointer : resolved.settings.pointer? .proxy with
      | some pointer =>
        exact iff_of_true ⟨_, result_expandWithin_proxy hid hresolve hpointer⟩ (.proxy hnew hresolve hpointer)
      | none =>
        rw [exists_expandWithin_term_iff hid hresolve hpointer, completes_term_iff hnew hresolve hpointer]
        exact forall₂_congr fun child hchild => ih child (h.child hresolve hchild)
  | case2 fresh names d hid =>
    rw [result_expandWithin, if_neg hid]
    refine iff_of_false ?_ fun hcompletes => hid (h.fresh_iff.2 hcompletes.id_not_mem)
    rintro ⟨_, ⟨⟩⟩

/-- An expansion fails exactly if it stops somewhere, and what is reported is where. -/
theorem expandWithin_eq_error_iff_halts (h : Allots registry known fresh above d) :
    (expandWithin registry fresh (above.map name) d).result = .error e ↔
      ∃ trail obstacle, Halts registry above d trail obstacle ∧ e = obstacle.error (above ++ trail) := by
  generalize hnames : above.map name = names
  induction fresh, names, d using expandWithin.induct generalizing above with
  | case1 fresh names d hid ih =>
    subst hnames
    have hnew := h.fresh_iff.1 hid
    cases hresolve : (d.resolve registry).result with
    | error cause =>
      rw [result_expandWithin_unresolved hid hresolve, Except.error.injEq]
      constructor
      · rintro rfl
        exact ⟨[d], .unresolved cause, .unresolved hnew hresolve, rfl⟩
      · rintro ⟨trail, obstacle, hhalts, rfl⟩
        cases hhalts with
        | repeated hmem => exact absurd hmem hnew
        | unresolved _ hresolve' =>
          cases hresolve.symm.trans hresolve'
          rfl
        | deeper _ hresolve' => cases hresolve.symm.trans hresolve'
    | ok resolved =>
      cases hpointer : resolved.settings.pointer? .proxy with
      | some pointer =>
        rw [result_expandWithin_proxy hid hresolve hpointer]
        constructor
        · intro hok
          cases hok
        · rintro ⟨trail, obstacle, hhalts, -⟩
          exact absurd hhalts (not_halts_of_proxy hnew hresolve hpointer)
      | none =>
        have hother : ∀ other ∈ resolved.children, (∃ e, (expandWithin registry (d.id.without fresh)
            (above.map name ++ [d.name]) other).result = .ok e) ↔ Completes registry (above ++ [d]) other :=
          fun other hother => expandWithin_eq_ok_iff_completes (h.child hresolve hother)
        have hshift : ∀ trail, above ++ [d] ++ trail = above ++ d :: trail := by simp
        simp only [expandWithin_term_eq_error_iff hid hresolve hpointer, halts_term_iff hnew hresolve hpointer]
        constructor
        · rintro ⟨before, child, after, hchildren, hbefore, hchild⟩
          have hmem : child ∈ resolved.children := by simp [hchildren]
          obtain ⟨trail, obstacle, hhalts, rfl⟩ := (ih child (h.child hresolve hmem) (map_name_concat above d)).1 hchild
          refine ⟨_, obstacle, ⟨before, child, after, trail, hchildren, fun other hbelow => ?_, hhalts, rfl⟩,
            by rw [hshift]⟩
          exact (hother other (by simp [hchildren, hbelow])).1 (hbefore other hbelow)
        · rintro ⟨_, obstacle, ⟨before, child, after, trail, hchildren, hbefore, hhalts, rfl⟩, rfl⟩
          have hmem : child ∈ resolved.children := by simp [hchildren]
          refine ⟨before, child, after, hchildren, fun other hbelow => ?_, ?_⟩
          · exact (hother other (by simp [hchildren, hbelow])).2 (hbefore other hbelow)
          · exact (ih child (h.child hresolve hmem) (map_name_concat above d)).2
              ⟨trail, obstacle, hhalts, by rw [hshift]⟩
  | case2 fresh names d hid =>
    subst hnames
    have hseen : d.id ∈ above.map id := not_not.1 (mt h.fresh_iff.2 hid)
    rw [result_expandWithin, if_neg hid, Except.error.injEq, ← map_name_concat]
    constructor
    · rintro rfl
      exact ⟨[d], .repeated, .repeated hseen, rfl⟩
    · rintro ⟨trail, obstacle, hhalts, rfl⟩
      cases hhalts with
      | repeated => rfl
      | unresolved hnew => exact absurd hseen hnew
      | deeper hnew => exact absurd hseen hnew

/-! ### Ways down -/

theorem Descent.exists_cons (h : Descent registry d path trail) : ∃ rest, trail = d :: rest := by
  cases h with
  | here => exact ⟨[], rfl⟩
  | @child _ _ _ _ _ rest => exact ⟨rest, rfl⟩

/-- A way down can be cut in two at any declaration on it. -/
theorem Descent.split (h : Descent registry d path (front ++ x :: back)) : ∃ upper lower,
    path = upper ++ lower ∧ Descent registry d upper (front ++ [x]) ∧ Descent registry x lower (x :: back) := by
  induction front generalizing d path with
  | nil =>
    obtain ⟨rest, hrest⟩ := h.exists_cons
    obtain ⟨rfl, -⟩ := List.cons.inj hrest
    exact ⟨[], path, rfl, .here, h⟩
  | cons first front ih =>
    generalize hwhole : first :: front ++ x :: back = whole at h
    cases h with
    | here => simp at hwhole
    | @child _ resolved child position path trail hresolve hpointer hchild hbelow =>
      obtain ⟨rfl, rfl⟩ := List.cons.inj hwhole
      obtain ⟨upper, lower, rfl, hupper, hlower⟩ := ih hbelow
      exact ⟨position :: upper, lower, rfl, .child hresolve hpointer hchild hupper, hlower⟩

/-- A way down can be continued. -/
theorem Descent.append (h : Descent registry d path (front ++ [x])) (hmore : Descent registry x more trail) :
    Descent registry d (path ++ more) (front ++ trail) := by
  generalize hwhole : front ++ [x] = whole at h
  induction h generalizing front with
  | here =>
    obtain ⟨rfl, rfl⟩ : front = [] ∧ x = _ := by simpa [List.append_eq_singleton_iff] using hwhole
    exact hmore
  | @child d resolved child position path rest hresolve hpointer hchild hbelow ih =>
    obtain ⟨others, rfl⟩ := hbelow.exists_cons
    cases front with
    | nil => simp at hwhole
    | cons first front =>
      obtain ⟨rfl, hrest⟩ := List.cons.inj hwhole
      exact .child hresolve hpointer hchild (ih hrest)

/-- A way from a declaration down to itself can be gone again and again. -/
theorem endless_of_loop (h : Descent registry d path (front ++ [x]))
    (hloop : Descent registry x loop (back ++ [x])) (hne : loop ≠ []) : Endless registry d := by
  have hagain : ∀ count, ∃ longer trail, count ≤ longer.length ∧ Descent registry d longer (trail ++ [x]) := by
    intro count
    induction count with
    | zero => exact ⟨path, front, Nat.zero_le _, h⟩
    | succ count ih =>
      obtain ⟨longer, trail, hcount, hlonger⟩ := ih
      have hpositive : 0 < loop.length := List.length_pos_iff.2 hne
      refine ⟨longer ++ loop, trail ++ back, ?_, ?_⟩
      · rw [List.length_append]
        omega
      · rw [List.append_assoc]
        exact hlonger.append hloop
  refine Set.Infinite.of_image List.length (Set.infinite_of_forall_exists_gt fun count => ?_)
  obtain ⟨longer, trail, hcount, hlonger⟩ := hagain (count + 1)
  exact ⟨longer.length, ⟨longer, ⟨_, hlonger⟩, rfl⟩, hcount⟩

/-! ### Where the guard stops an expansion -/

/-- There is a way down to where an expansion stops. -/
theorem Halts.exists_descent (h : Halts registry above d trail obstacle) :
    ∃ path, Descent registry d path trail := by
  induction h with
  | repeated => exact ⟨[], .here⟩
  | unresolved => exact ⟨[], .here⟩
  | @deeper above trail before after d resolved child obstacle _ hresolve hpointer hchildren _ _ ih =>
    obtain ⟨path, hpath⟩ := ih
    have hchild : resolved.children[before.length]? = some child := by simp [hchildren]
    exact ⟨before.length :: path, .child hresolve hpointer hchild hpath⟩

/-- The guard stops an expansion at an identity that is in progress. -/
theorem Halts.exists_of_repeated (h : Halts registry above d trail .repeated) :
    ∃ front last, trail = front ++ [last] ∧ last.id ∈ (above ++ front).map id := by
  generalize hobstacle : Obstacle.repeated = obstacle at h
  induction h with
  | @repeated above d hmem => exact ⟨[], d, rfl, by rwa [List.append_nil]⟩
  | unresolved => cases hobstacle
  | @deeper above trail before after d resolved child obstacle _ _ _ _ _ _ ih =>
    obtain ⟨front, last, rfl, hmem⟩ := ih hobstacle
    exact ⟨d :: front, last, rfl, by simpa using hmem⟩

theorem mem_familyOfAll_of_descend (h : d ∈ familyOfAll ds) (hdescend : descend names d = .ok target) :
    target ∈ familyOfAll ds := by
  induction names generalizing d with
  | nil =>
    rw [descend, Except.ok.injEq] at hdescend
    exact hdescend ▸ h
  | cons name rest ih =>
    rw [descend] at hdescend
    split at hdescend
    · cases hdescend
    · next child hchild =>
      exact ih (mem_familyOfAll_of_child h (Roster.mem_of_find? hchild)) hdescend

theorem mem_familyOfAll_of_lookup {p : Pointer} (h : r.lookup p = .ok target) : target ∈ familyOfAll r.roots := by
  refine Registry.forall_of_fromRoot (P := (· ∈ familyOfAll r.roots)) ?_ (fun names above target => ?_) h
  · intro root hroot
    exact mem_familyOfAll.2 ⟨root, hroot, self_mem_family root⟩
  · intro habove hdescend
    exact mem_familyOfAll_of_descend habove hdescend

/-- The children of what is resolved belong to the families of some declarations, if what is resolved does and the
registry does. -/
theorem mem_familyOfAll_of_resolve {child : Declaration} (hroots : ∀ r, registry = some r → r.roots ⊆ ds)
    (h : d ∈ familyOfAll ds) (hresolve : (d.resolve registry).result = .ok resolved)
    (hchild : child ∈ resolved.children) : child ∈ familyOfAll ds := by
  obtain ⟨chain, hchain, rfl⟩ := resolve_eq_ok_iff.1 hresolve
  rcases child_of_importAlong hchild with hchild | ⟨target, htarget, hchild⟩
  · exact mem_familyOfAll_of_child h hchild
  · have hfound : ∀ r p target, registry = some r → r.lookup p = .ok target → target ∈ familyOfAll ds :=
      fun r p target hr hlookup => familyOfAll_subset (hroots r hr) (mem_familyOfAll_of_lookup hlookup)
    exact mem_familyOfAll_of_child (forall_mem_of_chainFrom hfound hchain target htarget) hchild

/-- So do all declarations on a way down, if the first one does. -/
theorem Descent.forall_mem_family (h : Descent registry d path trail)
    (hroots : ∀ r, registry = some r → r.roots ⊆ ds) (hd : d ∈ familyOfAll ds) :
    ∀ x ∈ trail, x ∈ familyOfAll ds := by
  induction h with
  | here => simpa only [List.forall_mem_singleton] using hd
  | child hresolve _ hchild _ ih =>
    have hmem := mem_familyOfAll_of_resolve hroots hd hresolve (List.mem_of_getElem? hchild)
    exact List.forall_mem_cons.2 ⟨hd, ih hmem⟩

/-- Where every identity is at one place, the guard stops at a declaration that is in progress itself, and the
expansion would not have come to an end. -/
theorem Halts.endless (h : Halts (some r) [] d trail .repeated) (hd : d ∈ r.roots) (hnodup : r.identities.Nodup) :
    Endless (some r) d ∧ ∃ front last, trail = front ++ [last] ∧ last ∈ front := by
  obtain ⟨path, hpath⟩ := h.exists_descent
  obtain ⟨front, last, rfl, hmem⟩ := h.exists_of_repeated
  obtain ⟨same, hsame, hid⟩ := List.mem_map.1 hmem
  rw [List.nil_append] at hsame
  have hroots : ∀ other, some r = some other → other.roots ⊆ r.roots := by
    rintro _ ⟨⟩
    exact List.Subset.refl _
  have hfamily := hpath.forall_mem_family hroots (mem_familyOfAll.2 ⟨d, hd, self_mem_family d⟩)
  -- there is one declaration of each identity, so the one above and the one below are the same
  have hinj : ((familyOfAll r.roots).map id).Nodup := by rwa [map_id_familyOfAll]
  obtain rfl : same = last := List.inj_on_of_nodup_map hinj (hfamily same (List.mem_append_left _ hsame))
    (hfamily last (by simp)) hid
  refine ⟨?_, front, same, rfl, hsame⟩
  obtain ⟨upper, lower, rfl⟩ := List.append_of_mem hsame
  rw [List.append_assoc, List.cons_append] at hpath
  obtain ⟨path, loop, rfl, hupper, hloop⟩ := hpath.split
  have hloop' : Descent (some r) same loop (same :: lower ++ [same]) := hloop
  refine endless_of_loop hupper hloop' ?_
  rintro rfl
  generalize hwhole : same :: lower ++ [same] = whole at hloop'
  cases hloop'
  simp at hwhole

end Declaration

/-! ### Trees have an end -/

namespace Expansion

mutual

/-- A tree has finitely many nodes. -/
theorem finite_positions (e : Expansion) : {path | (e.at? path).isSome}.Finite := by
  cases e with
  | proxy name pointer settings =>
    refine (Set.finite_singleton []).subset fun path hpath => ?_
    cases path with
    | nil => rfl
    | cons position path => cases hpath
  | term name traits children =>
    refine ((Set.finite_singleton []).union (finite_positionsOfAll children)).subset fun path hpath => ?_
    cases path with
    | nil => exact .inl rfl
    | cons position path => exact .inr ⟨position, path, rfl, hpath⟩

theorem finite_positionsOfAll (es : List Expansion) :
    {path | ∃ position rest, path = position :: rest ∧ (es[position]?.bind (at? rest)).isSome}.Finite := by
  cases es with
  | nil =>
    refine Set.finite_empty.subset ?_
    rintro _ ⟨position, rest, rfl, hsome⟩
    cases hsome
  | cons e es =>
    have hfirst := (finite_positions e).image (0 :: ·)
    have hothers := (finite_positionsOfAll es).image fun path => (path.headD 0 + 1) :: path.tail
    refine (hfirst.union hothers).subset ?_
    rintro _ ⟨position, rest, rfl, hsome⟩
    cases position with
    | zero => exact .inl ⟨rest, hsome, rfl⟩
    | succ position => exact .inr ⟨position :: rest, ⟨position, rest, rfl, hsome⟩, rfl⟩

end

end Expansion

namespace Declaration

variable {registry : Option Registry} {r : Registry} {d : Declaration} {e : Error}

/-- What has a tree has an end. -/
theorem Expands.not_endless {tree : Expansion} (h : Expands registry d tree) : ¬ Endless registry d := by
  refine Set.not_infinite.2 (tree.finite_positions.subset ?_)
  rintro path ⟨trail, htrail⟩
  rcases h.at?_cases path with ⟨-, hno⟩ | ⟨-, -, node, -, -, hnode, -⟩
  · exact absurd htrail (hno trail)
  · rw [Set.mem_ofPred_eq, hnode]
    rfl

theorem expand_eq_ok_iff_completes : (∃ tree, (d.expand registry).result = .ok tree) ↔ Completes registry [] d :=
  expandWithin_eq_ok_iff_completes (allots_expand registry d)

theorem expand_eq_error_iff_halts : (d.expand registry).result = .error e ↔
    ∃ trail obstacle, Halts registry [] d trail obstacle ∧ e = obstacle.error trail :=
  expandWithin_eq_error_iff_halts (allots_expand registry d)

end Declaration

namespace Registry

open Declaration

variable {r : Registry} {e : Error}

/-- The roots are expanded up to the first one that stops. -/
theorem traverse_eq_error_iff : (Logged.traverse (fun d => d.expand (some r)) r.roots).result = .error e ↔
    ∃ before root after trail obstacle, r.roots = before ++ root :: after ∧
      (∀ other ∈ before, Completes (some r) [] other) ∧ Halts (some r) [] root trail obstacle ∧
      e = obstacle.error trail := by
  simp only [Logged.result_traverse_eq_error_iff, expand_eq_ok_iff_completes, expand_eq_error_iff_halts]
  constructor
  · rintro ⟨before, root, after, hroots, hbefore, trail, obstacle, hhalts, he⟩
    exact ⟨before, root, after, trail, obstacle, hroots, hbefore, hhalts, he⟩
  · rintro ⟨before, root, after, trail, obstacle, hroots, hbefore, hhalts, he⟩
    exact ⟨before, root, after, hroots, hbefore, trail, obstacle, hhalts, he⟩

/-- If all roots complete, they are expanded to the forest that they stand for. -/
theorem exists_traverse_iff :
    (∃ forest, (Logged.traverse (fun d => d.expand (some r)) r.roots).result = .ok forest) ↔
      ∀ root ∈ r.roots, Completes (some r) [] root := by
  rw [Logged.exists_result_traverse_iff]
  exact forall₂_congr fun root _ => expand_eq_ok_iff_completes

theorem expandsAll_of_traverse {forest : List Expansion}
    (h : (Logged.traverse (fun d => d.expand (some r)) r.roots).result = .ok forest) :
    ExpandsAll (some r) r.roots forest :=
  expandsAll_of_map (fun _ _ _ he => expands_of_expandWithin he) (Logged.result_traverse_eq_ok_iff.1 h)

/-- Building fails as the first root that stops, or as the check of the proxies. -/
theorem build_eq_error_iff : r.build.result = .error e ↔
    (∃ before root after trail obstacle, r.roots = before ++ root :: after ∧
      (∀ other ∈ before, Completes (some r) [] other) ∧ Halts (some r) [] root trail obstacle ∧
      e = obstacle.error trail) ∨
    ((∀ root ∈ r.roots, Completes (some r) [] root) ∧ ∃ forest, ExpandsAll (some r) r.roots forest ∧
      (Terminology.ofForest forest).checkLinks.result = .error e) := by
  rw [result_build, Terminology.result_build, ← traverse_eq_error_iff, ← exists_traverse_iff]
  cases htraverse : (Logged.traverse (fun d => d.expand (some r)) r.roots).result with
  | error cause =>
    dsimp only [bind, Except.bind]
    constructor
    · intro h
      exact .inl (congrArg Except.error (Except.error.inj h))
    · rintro (h | ⟨⟨forest, ⟨⟩⟩, -⟩)
      exact congrArg Except.error (Except.error.inj h)
  | ok forest =>
    have hexpands := expandsAll_of_traverse htraverse
    dsimp only [bind, Except.bind]
    constructor
    · intro h
      refine .inr ⟨⟨forest, rfl⟩, forest, hexpands, ?_⟩
      cases hcheck : (Terminology.ofForest forest).checkLinks.result with
      | error cause =>
        rw [hcheck] at h
        exact congrArg Except.error (Except.error.inj h)
      | ok _ =>
        rw [hcheck] at h
        cases h
    · rintro (⟨⟨⟩⟩ | ⟨-, other, hother, hcheck⟩)
      obtain rfl := hexpands.unique hother
      rw [hcheck]
      rfl

/-- Where every identity is at one place of the registry, the guard that stops a declaration below itself is
exact. Building fails as the first root whose expansion stops, or as the check of the proxies. If it is the
guard that stops an expansion, there would have been no end to it, and the trail goes from the root down to a
declaration that is on it already. If there is no end to the expansion of a root, building fails. -/
theorem guard_iff_endless (r : Registry) (h : r.identities.Nodup) :
    (∀ e, r.build.result = .error e ↔
      (∃ before root after trail obstacle, r.roots = before ++ root :: after ∧
        (∀ other ∈ before, Completes (some r) [] other) ∧ Halts (some r) [] root trail obstacle ∧
        e = obstacle.error trail) ∨
      ((∀ root ∈ r.roots, Completes (some r) [] root) ∧ ∃ forest, ExpandsAll (some r) r.roots forest ∧
        (Terminology.ofForest forest).checkLinks.result = .error e)) ∧
    (∀ root ∈ r.roots, ∀ trail, Halts (some r) [] root trail .repeated → Endless (some r) root ∧
      (∃ path, Descent (some r) root path trail) ∧ ∃ front last, trail = front ++ [last] ∧ last ∈ front) ∧
    ∀ root ∈ r.roots, Endless (some r) root → ∃ e, r.build.result = .error e := by
  refine ⟨fun e => build_eq_error_iff, fun root hroot trail hhalts => ?_, fun root hroot hendless => ?_⟩
  · obtain ⟨hendless, hlast⟩ := hhalts.endless hroot h
    exact ⟨hendless, hhalts.exists_descent, hlast⟩
  · cases hbuild : r.build.result with
    | error e => exact ⟨e, rfl⟩
    | ok t =>
      obtain ⟨forest, hforest, -⟩ := Terminology.build_eq_ok_iff.1 (build_eq_ok_iff.1 hbuild)
      obtain ⟨tree, -, htree⟩ := List.mem_map.1 (hforest ▸ List.mem_map_of_mem hroot)
      exact absurd hendless (expands_of_expandWithin htree.symm).not_endless

end Registry

namespace Terminology.Sample

open Declaration

/-- A part that refers to what it lies in, and so imports itself. -/
def part : Declaration := declaration 1 "part" [(.reference, .pointer (pointer ["whole"]))] []

/-- The whole, with the part below it. -/
def nested : Registry where
  roots := [declaration 0 "whole" [] [part]]
  distinct := by decide

/-- The guard stops the part below itself. Its expansion would have no end, and the whole is not built. -/
theorem circular_of_nested : nested.identities.Nodup ∧ Endless (some nested) nested.roots[0] ∧
    nested.build.result = .error (.circularReference [⟨"whole"⟩, ⟨"part"⟩, ⟨"part"⟩]) := by
  have hnodup : nested.identities.Nodup := by decide +kernel
  have hwhole : (nested.roots[0].resolve (some nested)).result = .ok (nested.roots[0].importAlong []) :=
    resolve_eq_ok_iff.2 ⟨[], chain_eq_ok_iff_walk.2 ⟨_, .nil, by decide +kernel, rfl⟩, rfl⟩
  have hpart : (part.resolve (some nested)).result = .ok (part.importAlong [nested.roots[0]]) :=
    resolve_eq_ok_iff.2 ⟨_, chain_eq_ok_iff_walk.2 ⟨_, .cons rfl .nil, by decide +kernel, rfl⟩, rfl⟩
  have hbelow : (nested.roots[0].importAlong []).children = [] ++ part :: [] := rfl
  have hagain : (part.importAlong [nested.roots[0]]).children = [] ++ part :: [] := rfl
  have hhalts : Halts (some nested) [] nested.roots[0] [nested.roots[0], part, part] .repeated :=
    .deeper List.not_mem_nil hwhole rfl hbelow nofun
      (.deeper (by decide +kernel) hpart rfl hagain nofun (.repeated (by decide +kernel)))
  obtain ⟨herror, hguard, -⟩ := Registry.guard_iff_endless nested hnodup
  have hroots : nested.roots = [] ++ nested.roots[0] :: [] := rfl
  refine ⟨hnodup, (hguard _ List.mem_cons_self _ hhalts).1, (herror _).2 (.inl ?_)⟩
  exact ⟨[], nested.roots[0], [], _, .repeated, hroots, nofun, hhalts, rfl⟩

end Terminology.Sample

end TermAtlas
