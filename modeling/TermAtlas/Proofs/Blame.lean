import TermAtlas.Proofs.Standing
import TermAtlas.Proofs.Unfolding

/-!
# Who is to blame for a bad pointer

A pointer that leads nowhere is met far from where it stands: by a declaration whose references lead to the one
that has it, by the declarations above, or by a proxy that goes through another proxy. What is reported is the name
of the one that has the pointer, and the pointer. This is a reference that the registry has nothing for
(`Dangles`), of a declaration that was looked at in the course of the expansion; or it is a proxy that is stuck
itself, in the terminology whose proxies are checked.

What merely leads to a broken pointer is not broken. A declaration that refers to another one does not dangle, and
a proxy that waits for a node that stands for nothing is not stuck: it has come as far as to that node, and no
further.

## What is proved

* `Halts.exists_of_unresolved`, `exists_dangling_of_resolve` — an expansion stops at a declaration that cannot be
  resolved, and its references lead to one that dangles.
* `goes_append_iff` — going down along names can be cut in two.
* `Stuck.not_standsFor`, `Meets.not_stuck` — a proxy that is stuck stands for nothing, and one that waits for such
  a node is not stuck.
* `badPointer_blames` — who is blamed for a bad pointer, by builds and by grafts.
-/

namespace TermAtlas

namespace Declaration

/-- The reference of `d` is read as the pointer `p`, where the registry has nothing. -/
def Dangles (registry : Option Registry) (d : Declaration) (p : Pointer) : Prop :=
  d.settings.pointer? .reference = some p ∧ ∃ r e, registry = some r ∧ r.lookup p = .error e

/-- In the course of the expansion of `d` one looks at `source`: references lead to it from a declaration on a way
down. -/
def LooksAt (registry : Option Registry) (d source : Declaration) : Prop :=
  ∃ path trail x ts, Descent registry d path (trail ++ [x]) ∧ Walk registry x ts source

/-- A declaration of this name dangles with this pointer. It belongs to what is expanded or to the registry, and
the expansion looks at it. -/
def Misleads (registry : Option Registry) (ds : List Declaration) (label : Name) (p : Pointer) : Prop :=
  ∃ source, (source ∈ familyOfAll ds ∨ ∃ r, registry = some r ∧ source ∈ familyOfAll r.roots) ∧
    (∃ d ∈ ds, LooksAt registry d source) ∧ source.name = label ∧ Dangles registry source p

variable {registry : Option Registry} {d x target source last : Declaration} {ds above trail ts : List Declaration}
  {label : Name} {p : Pointer} {e : Error}

/-! ### References -/

theorem resolve_eq_error_iff : (d.resolve registry).result = .error e ↔ (d.chain registry).result = .error e := by
  unfold resolve
  rw [Logged.result_bind_eq_error_iff]
  refine or_iff_left ?_
  rintro ⟨chain, -, h⟩
  split at h <;> cases h

/-- An expansion that is not stopped by the guard stops at a declaration that cannot be resolved. -/
theorem Halts.exists_of_unresolved (h : Halts registry above d trail (.unresolved e)) :
    ∃ front last, trail = front ++ [last] ∧ (last.resolve registry).result = .error e := by
  generalize hobstacle : Obstacle.unresolved e = obstacle at h
  induction h with
  | repeated => cases hobstacle
  | @unresolved above d cause _ hresolve =>
    cases hobstacle
    exact ⟨[], d, rfl, hresolve⟩
  | @deeper above trail before after d resolved child obstacle _ _ _ _ _ _ ih =>
    obtain ⟨front, last, rfl, hlast⟩ := ih hobstacle
    exact ⟨d :: front, last, rfl, hlast⟩

/-- The references of a declaration that cannot be resolved because of a bad pointer lead to one that dangles. -/
theorem exists_dangling_of_resolve (h : (d.resolve registry).result = .error (.badPointer label p)) :
    ∃ ts source, Walk registry d ts source ∧ source.name = label ∧ Dangles registry source p := by
  obtain ⟨ts, source, hwalk, -, hrefuses⟩ := chain_eq_error_iff_walk.1 (resolve_eq_error_iff.1 h)
  cases hrefuses with
  | nowhere hp hr hlookup => exact ⟨ts, source, hwalk, rfl, hp, _, _, hr, hlookup⟩

/-- References lead to the registry, if they lead anywhere. -/
theorem Walk.eq_or_mem_family (h : Walk registry d ts last) :
    last = d ∨ ∃ r, registry = some r ∧ last ∈ familyOfAll r.roots := by
  by_cases hne : ts = []
  · subst hne
    cases h
    exact .inl rfl
  · obtain ⟨_, _, -, -, hlast⟩ := h.exists_concat hne
    obtain ⟨p, r, -, hr, hlookup⟩ := referred?_eq_some_iff.1 hlast
    exact .inr ⟨r, hr, mem_familyOfAll_of_lookup hlookup⟩

/-- What an expansion looks at belongs to what is expanded or to the registry. -/
theorem LooksAt.mem_family (h : LooksAt registry d source) (hd : d ∈ ds) :
    source ∈ familyOfAll ds ∨ ∃ r, registry = some r ∧ source ∈ familyOfAll r.roots := by
  obtain ⟨path, trail, x, ts, hdescent, hwalk⟩ := h
  rcases hwalk.eq_or_mem_family with rfl | hregistry
  · have hroots : ∀ r, registry = some r → r.roots ⊆ ds ++ (registry.map Registry.roots).getD [] := by
      rintro r rfl
      exact List.subset_append_right _ _
    have hfirst : d ∈ familyOfAll (ds ++ (registry.map Registry.roots).getD []) :=
      mem_familyOfAll.2 ⟨d, List.mem_append_left _ hd, self_mem_family d⟩
    have hmem := hdescent.forall_mem_family hroots hfirst source (by simp)
    obtain ⟨root, hroot, hsource⟩ := mem_familyOfAll.1 hmem
    rcases List.mem_append.1 hroot with hroot | hroot
    · exact .inl (mem_familyOfAll.2 ⟨root, hroot, hsource⟩)
    · cases registry with
      | none => cases hroot
      | some r => exact .inr ⟨r, rfl, mem_familyOfAll.2 ⟨root, hroot, hsource⟩⟩
  · exact .inr hregistry

/-- An expansion that fails because of a bad pointer has looked at a declaration that dangles. -/
theorem misleads_of_expand (hd : d ∈ ds) (h : (d.expand registry).result = .error (.badPointer label p)) :
    Misleads registry ds label p := by
  obtain ⟨trail, obstacle, hhalts, he⟩ := expand_eq_error_iff_halts.1 h
  cases obstacle with
  | repeated => cases he
  | unresolved cause =>
    obtain rfl : Error.badPointer label p = cause := he
    obtain ⟨path, hpath⟩ := hhalts.exists_descent
    obtain ⟨front, last, rfl, hresolve⟩ := hhalts.exists_of_unresolved
    obtain ⟨ts, source, hwalk, hname, hdangles⟩ := exists_dangling_of_resolve hresolve
    have hlooks : LooksAt registry d source := ⟨path, front, last, ts, hpath, hwalk⟩
    exact ⟨source, hlooks.mem_family hd, ⟨d, hd, hlooks⟩, hname, hdangles⟩

/-- A declaration that refers to another one does not dangle. -/
theorem not_dangles_of_referred (h : referred? registry d = some target) : ¬ Dangles registry d p := by
  rintro ⟨hp, r, e, rfl, hlookup⟩
  obtain ⟨p', r', hp', hr', hlookup'⟩ := referred?_eq_some_iff.1 h
  cases hr'
  cases hp.symm.trans hp'
  cases hlookup.symm.trans hlookup'

end Declaration

namespace Terminology

open Declaration

/-- A proxy of this name and with this pointer is stuck. -/
def Strands (t : Terminology) (label : Name) (p : Pointer) : Prop :=
  ∃ proxy, Node.proxy proxy ∈ t.nodes ∧ proxy.name = label ∧ proxy.pointer = p ∧ t.Stuck proxy

variable {t : Terminology} {scope middle last : Option Nat} {names more : List Name} {id next target : Nat}
  {proxy : Proxy} {label : Name} {p : Pointer}

/-! ### Proxies -/

/-- Going down along names can be cut in two. -/
theorem goes_append_iff : t.Goes scope (names ++ more) last ↔
    ∃ middle, t.Goes scope names middle ∧ t.Goes middle more last := by
  constructor
  · intro h
    induction names generalizing scope with
    | nil => exact ⟨scope, .stay, h⟩
    | cons name names ih =>
      cases h with
      | down hchild hstands hrest =>
        obtain ⟨middle, hmiddle, hlast⟩ := ih hrest
        exact ⟨middle, .down hchild hstands hmiddle, hlast⟩
  · rintro ⟨middle, hmiddle, hlast⟩
    induction names generalizing scope with
    | nil =>
      cases hmiddle
      exact hlast
    | cons name names ih =>
      cases hmiddle with
      | down hchild hstands hrest => exact .down hchild hstands (ih hrest)

/-- Names lead to one scope at most. -/
theorem Goes.unique (h : t.Goes scope names last) {other : Option Nat} (h' : t.Goes scope names other) :
    other = last := standsFor_and_goes_unique.2 scope names last h other h'

/-- Where names lead down, each of them is found where those before it have led. -/
theorem Goes.exists_child {front back : List Name} {name : Name} (h : t.Goes scope (front ++ name :: back) last)
    (hfront : t.Goes scope front middle) :
    ∃ next stop, t.child? middle name = some next ∧ t.StandsFor next stop := by
  obtain ⟨other, hother, hrest⟩ := goes_append_iff.1 h
  obtain rfl := hfront.unique hother
  cases hrest with
  | down hchild hstands _ => exact ⟨_, _, hchild, hstands⟩

/-- A proxy that is stuck stands for nothing. -/
theorem Stuck.not_standsFor (h : t.Stuck proxy) (hnode : t.node? id = some (.proxy proxy)) :
    ¬ t.StandsFor id target := by
  intro hstands
  cases hstands with
  | term hterm => cases hnode.symm.trans hterm
  | proxy hproxy hne hgoes =>
    cases hnode.symm.trans hproxy
    rcases h with hempty | ⟨front, missing, back, reached, hnames, hfront, hnone⟩
    · exact hne hempty
    · rw [hnames] at hgoes
      obtain ⟨next, stop, hchild, -⟩ := hgoes.exists_child hfront
      cases hnone.symm.trans hchild

/-- A proxy that waits for a node that stands for nothing is not stuck: all names up to this node are there, and
those behind it are not looked for. -/
theorem Meets.not_stuck (h : t.Meets next id) (hnode : t.node? id = some (.proxy proxy))
    (hnothing : ∀ target, ¬ t.StandsFor next target) : ¬ t.Stuck proxy := by
  obtain ⟨other, hother, front, name, back, reached, hnames, hgoes, hchild⟩ := h
  cases hnode.symm.trans hother
  rintro (hempty | ⟨front', missing, back', reached', hnames', hgoes', hnone⟩)
  · rw [hempty] at hnames
    simp at hnames
  · rw [hnames] at hnames'
    rcases List.append_eq_append_iff.1 hnames' with ⟨between, rfl, hrest⟩ | ⟨between, rfl, hrest⟩
    · cases between with
      | nil =>
        obtain ⟨rfl, -⟩ := List.cons.inj hrest
        rw [List.append_nil] at hgoes'
        obtain rfl := hgoes.unique hgoes'
        cases hnone.symm.trans hchild
      | cons first between =>
        obtain ⟨rfl, -⟩ := List.cons.inj hrest
        obtain ⟨found, stop, hfound, hstands⟩ := hgoes'.exists_child hgoes
        cases hchild.symm.trans hfound
        exact hnothing stop hstands
    · cases between with
      | nil =>
        obtain ⟨rfl, -⟩ := List.cons.inj hrest
        rw [List.append_nil] at hgoes
        obtain rfl := hgoes.unique hgoes'
        cases hnone.symm.trans hchild
      | cons first between =>
        obtain ⟨rfl, -⟩ := List.cons.inj hrest
        obtain ⟨found, stop, hfound, -⟩ := hgoes.exists_child hgoes'
        cases hnone.symm.trans hfound

/-- The check of the proxies fails as one of them. -/
theorem Consistent.error_of_checkLinks (h : t.Consistent) {e : Error} (herror : t.checkLinks.result = .error e) :
    ∃ id proxy, t.node? id = some (.proxy proxy) ∧ t.resolveProxy id = .error e := by
  rw [checkLinks, Logged.result_bind_eq_error_iff] at herror
  rcases herror with herror | ⟨_, -, ⟨⟩⟩
  obtain ⟨before, node, after, hnodes, -, hnode⟩ := Logged.result_traverse_eq_error_iff.1 herror
  cases node with
  | term term => cases hnode
  | proxy proxy =>
    rw [checkLink, Logged.result_bind_eq_error_iff] at hnode
    rcases hnode with hnode | ⟨_, -, ⟨⟩⟩
    have hmem : Node.proxy proxy ∈ t.nodes := by simp [hnodes]
    obtain ⟨id, hid⟩ := List.mem_iff_getElem?.1 hmem
    obtain rfl : proxy.id = id := h.id_eq id _ hid
    exact ⟨proxy.id, proxy, hid, hnode⟩

/-- The check fails because of a bad pointer if a proxy with this pointer is stuck. -/
theorem Consistent.strands_of_checkLinks (h : t.Consistent)
    (herror : t.checkLinks.result = .error (.badPointer label p)) : t.Strands label p := by
  obtain ⟨id, proxy, hnode, hresolve⟩ := h.error_of_checkLinks herror
  rw [resolveProxy] at hresolve
  split at hresolve
  · next cause hfollow =>
    obtain rfl := Except.error.inj hresolve
    rcases h.error_of_follow hnode hfollow with ⟨stuck, hmem, hstuck, he⟩ | ⟨_, _, -, -, he⟩
    · cases he
      exact ⟨stuck, hmem, rfl, rfl, hstuck⟩
    · cases he
  · split at hresolve <;> cases hresolve

/-! ### Builds and grafts -/

theorem eq_error_of_map {α β : Type} {x : Except Error α} {f : α → β} {e : Error} (h : x.map f = .error e) :
    x = .error e := by
  cases x with
  | error cause => exact congrArg Except.error (Except.error.inj h)
  | ok a => cases h

theorem misleads_or_strands_of_build {registry : Option Registry} {ds : List Declaration}
    (h : (build registry ds).result = .error (.badPointer label p)) :
    Misleads registry ds label p ∨
      ∃ forest, ExpandsAll registry ds forest ∧ (ofForest forest).Strands label p := by
  rw [result_build] at h
  cases htraverse : (Logged.traverse (fun d => d.expand registry) ds).result with
  | error cause =>
    rw [htraverse] at h
    obtain rfl := Except.error.inj h
    obtain ⟨before, d, after, rfl, -, hexpand⟩ := Logged.result_traverse_eq_error_iff.1 htraverse
    exact .inl (misleads_of_expand (by simp) hexpand)
  | ok forest =>
    rw [htraverse] at h
    have hexpands : ExpandsAll registry ds forest :=
      expandsAll_of_map (fun _ _ _ he => expands_of_expandWithin he) (Logged.result_traverse_eq_ok_iff.1 htraverse)
    refine .inr ⟨forest, hexpands, (arranged_ofForest forest).consistent.strands_of_checkLinks ?_⟩
    exact eq_error_of_map h

/-- A graft onto a coherent terminology fails because of a bad pointer of what is grafted, or of a proxy of the
terminology with the new tree; the place of the graft is not to blame. -/
theorem Coherent.misleads_or_strands_of_graft (h : t.Coherent) {place : Pointer} {d : Declaration}
    {registry : Option Registry} (herror : (t.graft place d registry).result = .error (.badPointer label p)) :
    Misleads registry [d] label p ∨ ∃ parent e, t.locate none place = .ok parent.id ∧
      t.term? parent.id = some parent ∧ Expands registry d e ∧ (t.attach parent e).Strands label p := by
  rcases h.locate_cases none place with ⟨parent, hlocate, hterm⟩ | hempty | ⟨missing, hmisses⟩
  · rw [graft, hlocate, Logged.result_bind_eq_error_iff] at herror
    rcases herror with ⟨⟨⟩⟩ | ⟨_, ⟨⟩, herror⟩
    simp only [hterm, Logged.result_bind_eq_error_iff] at herror
    rcases herror with hexpand | ⟨e, hexpand, hcheck | ⟨_, -, ⟨⟨⟩⟩ | ⟨_, -, ⟨⟨⟩⟩ | ⟨_, -, ⟨⟩⟩⟩⟩⟩
    · exact .inl (misleads_of_expand (List.mem_singleton_self d) hexpand)
    · have hgrown := (h.toArranged.attach e hterm).consistent
      exact .inr ⟨parent, e, hlocate, hterm, expands_of_expandWithin hexpand, hgrown.strands_of_checkLinks hcheck⟩
  · cases (result_graft_of_locate (locate_of_empty hempty) d registry).symm.trans herror
  · cases (result_graft_of_locate (hmisses.locate_eq h.toArranged) d registry).symm.trans herror

/-- What a bad pointer is blamed on has this pointer, and it leads nowhere. It is a declaration whose reference is
read as the pointer, where the registry has nothing; the expansion has looked at it. Or it is a proxy that is
stuck, in the terminology of which the proxies are checked. Nothing that merely leads to it is broken: a
declaration that refers to another one does not dangle, and a proxy that waits for a node that stands for nothing
is not stuck. -/
theorem badPointer_blames (label : Name) (p : Pointer) :
    (∀ r : Registry, r.build.result = .error (.badPointer label p) → Misleads (some r) r.roots label p ∨
      ∃ forest, ExpandsAll (some r) r.roots forest ∧ (ofForest forest).Strands label p) ∧
    (∀ (d : Declaration) (registry : Option Registry), (d.build registry).result = .error (.badPointer label p) →
      Misleads registry [d] label p ∨ ∃ e, Expands registry d e ∧ (ofForest [e]).Strands label p) ∧
    (∀ (t : Terminology) (place : Pointer) (d : Declaration) (registry : Option Registry), t.Reached →
      (t.graft place d registry).result = .error (.badPointer label p) →
      Misleads registry [d] label p ∨ ∃ parent e, t.locate none place = .ok parent.id ∧
        t.term? parent.id = some parent ∧ Expands registry d e ∧ (t.attach parent e).Strands label p) ∧
    (∀ (registry : Option Registry) (d target : Declaration), referred? registry d = some target →
      ¬ Dangles registry d p) ∧
    ∀ (t : Terminology) (next id : Nat) (proxy : Proxy), t.node? id = some (.proxy proxy) → t.Meets next id →
      (∀ target, ¬ t.StandsFor next target) → ¬ t.Stuck proxy := by
  refine ⟨fun r h => ?_, fun d registry h => ?_, fun t place d registry hreached h => ?_,
    fun registry d target htarget => not_dangles_of_referred htarget,
    fun t next id proxy hnode hmeets hnothing => hmeets.not_stuck hnode hnothing⟩
  · rw [Registry.result_build] at h
    exact misleads_or_strands_of_build h
  · rcases misleads_or_strands_of_build h with hmisleads | ⟨forest, hforest, hstrands⟩
    · exact .inl hmisleads
    · cases hforest with
      | cons he hrest =>
        cases hrest
        exact .inr ⟨_, he, hstrands⟩
  · exact hreached.coherent.misleads_or_strands_of_graft h

namespace Sample

/-- A story after a tale, which is told after a legend that nobody has written down. -/
def retold : Registry where
  roots := [
    declaration 0 "story" [(.reference, .pointer (pointer ["tale"]))] [],
    declaration 1 "tale" [(.reference, .pointer (pointer ["legend"]))] []]
  distinct := by decide

/-- A house with a way that leads by a detour, and the detour by a gate that is not there. -/
def house : Declaration := declaration 2 "house" [] [
  declaration 3 "way" [(.proxy, .pointer (pointer ["detour", "garden"]))] [],
  declaration 4 "detour" [(.proxy, .pointer (pointer ["gate"]))] []]

/-- The house as it is built before the check. -/
def unchecked : Terminology :=
  ofForest ((house.expand none).result.toOption.toList)

/-- The way in the house. -/
def way : Proxy where
  id := 1
  name := ⟨"way"⟩
  parent := some 0
  pointer := pointer ["detour", "garden"]
  settings := (declaration 3 "way" [(.proxy, .pointer (pointer ["detour", "garden"]))] []).settings

/-- Another name for the code of a role, which persons do not have. -/
def codeless : Declaration := declaration 10 "code" [(.proxy, .pointer (pointer ["role", "code"]))] []

/-- The tale is to blame for the story, the detour for the way, and a name that is new for a graft. -/
theorem badPointer_of_retold_and_house :
    retold.build.result = .error (.badPointer ⟨"tale"⟩ (pointer ["legend"])) ∧
    Misleads (some retold) retold.roots ⟨"tale"⟩ (pointer ["legend"]) ∧
    (house.build none).result = .error (.badPointer ⟨"detour"⟩ (pointer ["gate"])) ∧
    (∃ e, Expands none house e ∧ (ofForest [e]).Strands ⟨"detour"⟩ (pointer ["gate"])) ∧
    (unchecked.node? 1 = some (.proxy way) ∧ unchecked.Meets 2 1 ∧ ¬ unchecked.Stuck way) ∧
    (built.graft (pointer ["person"]) codeless none).result =
      .error (.badPointer ⟨"code"⟩ (pointer ["role", "code"])) ∧
    ∃ parent e, built.term? parent.id = some parent ∧ Expands none codeless e ∧
      (built.attach parent e).Strands ⟨"code"⟩ (pointer ["role", "code"]) := by
  obtain ⟨hregistry, -⟩ := badPointer_blames ⟨"tale"⟩ (pointer ["legend"])
  obtain ⟨-, halone, -, -, hmeets⟩ := badPointer_blames ⟨"detour"⟩ (pointer ["gate"])
  obtain ⟨-, -, hgraft, -⟩ := badPointer_blames ⟨"code"⟩ (pointer ["role", "code"])
  have hnone : ∀ ds label p, ¬ Misleads none ds label p := by
    rintro ds label p ⟨_, -, -, -, -, _, _, ⟨⟩, -⟩
  have hretold : retold.build.result = .error (.badPointer ⟨"tale"⟩ (pointer ["legend"])) := by decide +kernel
  have hhouse : (house.build none).result = .error (.badPointer ⟨"detour"⟩ (pointer ["gate"])) := by decide +kernel
  have hcodeless : (built.graft (pointer ["person"]) codeless none).result =
      .error (.badPointer ⟨"code"⟩ (pointer ["role", "code"])) := by decide +kernel
  refine ⟨hretold, ?_, hhouse, ?_, ?_, hcodeless, ?_⟩
  · refine (hregistry retold hretold).resolve_right ?_
    rintro ⟨forest, hforest, -⟩
    -- the story cannot be expanded, so nothing is built whose proxies could be checked
    have hlost : ∀ resolved, ((declaration 0 "story" [(.reference, .pointer (pointer ["tale"]))] []).resolve
        (some retold)).result ≠ .ok resolved := by
      intro resolved hresolve
      cases hresolve.symm.trans (resolve_eq_error_iff.2 (chain_eq_error_iff_walk.2
        ⟨_, _, .cons rfl .nil, by decide +kernel, .nowhere rfl rfl rfl⟩))
    cases hforest with
    | cons hstory _ =>
      cases hstory with
      | proxy hresolve => exact hlost _ hresolve
      | term hresolve => exact hlost _ hresolve
  · exact (halone house none hhouse).resolve_left (hnone _ _ _)
  · have hway : unchecked.node? 1 = some (.proxy way) := by decide +kernel
    have hchild : unchecked.child? (some 0) ⟨"detour"⟩ = some 2 := by decide +kernel
    have hlost : unchecked.follow 2 = .error (.badPointer ⟨"detour"⟩ (pointer ["gate"])) := by decide +kernel
    have hmeetsWay : unchecked.Meets 2 1 := ⟨way, hway, [], ⟨"detour"⟩, [⟨"garden"⟩], some 0, rfl, .stay, hchild⟩
    refine ⟨hway, hmeetsWay, hmeets unchecked 2 1 way hway hmeetsWay fun target hstands => ?_⟩
    cases hlost.symm.trans (follow_eq_ok_iff_standsFor.2 hstands)
  · obtain ⟨parent, e, -, hterm, hexpands, hstrands⟩ :=
      (hgraft built _ codeless none reached_built hcodeless).resolve_left (hnone _ _ _)
    exact ⟨parent, e, hterm, hexpands, hstrands⟩

end Sample

end Terminology

end TermAtlas
