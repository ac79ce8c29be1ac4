import TermAtlas.Proofs.Importing
import TermAtlas.Proofs.Unfolding

/-!
# Resolving ahead of time

A build resolves each declaration as it comes to it. Declarations can as well be resolved before, wherever they
are in the tree and as many of them as one likes, and the build does not tell the difference: it fails for the
same reason, or gives the same terminology.

A declaration that was resolved refers to nothing any more, and so the build imports nothing again. One that has
such a declaration below it imports the same as before, for it goes by the names of its children only, and these
are the same. What is expanded below it are then again declarations of which some have been resolved ahead of
time, and the identities in progress are the same as well.

## What is proved

* `ResolvedAhead.resolve` — resolving goes the same way, but for what was resolved among the children.
* `ResolvedAhead.expandWithin` — so does expanding, and with the same result.
* `build_of_resolved_ahead` — a declaration in a tree can be replaced by what it is resolved to.
-/

namespace TermAtlas

namespace Declaration

/-- `d.ResolvedAhead registry d'`: in `d'` some of the declarations of `d` have been resolved ahead of time. -/
inductive ResolvedAhead (registry : Option Registry) : Declaration → Declaration → Prop where
  /-- None have been. -/
  | same (d : Declaration) : ResolvedAhead registry d d
  /-- The declaration itself has been. -/
  | here {d resolved : Declaration} : (d.resolve registry).result = .ok resolved →
      ResolvedAhead registry d resolved
  /-- Some below it have been. -/
  | deeper {d : Declaration} {children : List Declaration} :
      List.Forall₂ (ResolvedAhead registry) d.children children →
      ResolvedAhead registry d { d with children := children }

variable {registry : Option Registry} {d d' target resolved : Declaration}
  {visited visited' chain children above above' : List Declaration} {names : List Name}
  {known known' fresh fresh' : List Identity}

theorem ResolvedAhead.id_eq (h : d.ResolvedAhead registry d') : d'.id = d.id := by
  cases h with
  | same => rfl
  | here hresolve => exact (id_and_name_of_resolve hresolve).1
  | deeper _ => rfl

theorem ResolvedAhead.name_eq (h : d.ResolvedAhead registry d') : d'.name = d.name := by
  cases h with
  | same => rfl
  | here hresolve => exact (id_and_name_of_resolve hresolve).2
  | deeper _ => rfl

/-! ### Resolving -/

/-- A chain does not depend on children. -/
theorem result_chainFrom_congr (hsettings : d'.settings = d.settings) (hname : d'.name = d.name)
    (hids : visited'.map id = visited.map id) (hnames : visited'.map name = visited.map name) :
    (chainFrom registry visited' d').result = (chainFrom registry visited d).result := by
  cases registry with
  | none =>
    cases hpointer : d.settings.pointer? .reference with
    | none =>
      have hpointer' : d'.settings.pointer? .reference = none := by rw [hsettings, hpointer]
      rw [chainFrom_of_pointer?_eq_none hpointer, chainFrom_of_pointer?_eq_none hpointer']
    | some p =>
      have hpointer' : d'.settings.pointer? .reference = some p := by rw [hsettings, hpointer]
      rw [result_chainFrom_of_registry_eq_none hpointer, result_chainFrom_of_registry_eq_none hpointer', hname]
  | some r =>
    -- there are fewer and fewer identities that are not on the chain yet
    induction hlength : (unvisited (some r) visited).length using Nat.strongRecOn
      generalizing visited visited' d d' with
    | _ length ih =>
      rw [result_chainFrom, result_chainFrom, hsettings, hname]
      cases d.settings.pointer? .reference with
      | none => rfl
      | some pointer =>
        dsimp only
        cases hlookup : r.lookup pointer with
        | error e => rfl
        | ok target =>
          have hamong : target.isAmong visited' = target.isAmong visited := by
            rw [Bool.eq_iff_iff, isAmong_iff, isAmong_iff, hids]
          have hids' : (target :: visited').map id = (target :: visited).map id := by
            rw [List.map_cons, List.map_cons, hids]
          have hnames' : (target :: visited').map name = (target :: visited).map name := by
            rw [List.map_cons, List.map_cons, hnames]
          dsimp only [Except.mapError, bind, Except.bind]
          rw [hamong, List.map_reverse, List.map_reverse, hnames']
          split
          · rfl
          · next hnew =>
            have hless := length_unvisited_lt hlookup (by simpa using hnew)
            rw [ih _ (hlength ▸ hless) rfl rfl hids' hnames' rfl]

theorem result_chain_with_children (d : Declaration) (children : List Declaration) :
    (({ d with children := children } : Declaration).chain registry).result = (d.chain registry).result :=
  result_chainFrom_congr rfl rfl rfl rfl

theorem foldl_absorb_with_children (d : Declaration) (children : List Declaration) :
    chain.foldl absorb { d with children := children } =
      { chain.foldl absorb d with children := addMissing children (chain.flatMap Declaration.children) } := by
  induction chain generalizing d children with
  | nil => rfl
  | cons target rest ih =>
    have habsorb : absorb { d with children := children } target =
      { d.absorb target with children := addMissing children target.children } := rfl
    rw [List.foldl_cons, List.foldl_cons, habsorb, ih, List.flatMap_cons, addMissing_append]

/-- Importing treats settings and children apart. -/
theorem importAlong_with_children (d : Declaration) (children chain : List Declaration) :
    importAlong { d with children := children } chain =
      { d.importAlong chain with children := addMissing children (chain.flatMap Declaration.children) } := by
  have hdefault : ∀ (x : Declaration) (others : List Declaration),
      defaultPath { x with children := others } chain = { x.defaultPath chain with children := others } := by
    intro x others
    unfold defaultPath
    cases chain.getLast? with
    | none => rfl
    | some last => cases x.settings.get? .path <;> rfl
  rw [importAlong, foldl_absorb_with_children, hdefault]
  rfl

/-- Resolving goes the same way if some of the declarations have been resolved ahead of time. It gives the same
but for what was resolved among the children. -/
theorem ResolvedAhead.resolve (h : d.ResolvedAhead registry d') :
    Concur (fun x x' => x'.settings = x.settings ∧
      List.Forall₂ (ResolvedAhead registry) x.children x'.children)
      (d.resolve registry).result (d'.resolve registry).result := by
  have hsame : ∀ x : Declaration, x.settings = x.settings ∧
      List.Forall₂ (ResolvedAhead registry) x.children x.children :=
    fun x => ⟨rfl, List.forall₂_same.2 fun child _ => .same child⟩
  cases h with
  | same =>
    cases (d.resolve registry).result with
    | error e => exact .error e
    | ok x => exact .ok (hsame x)
  | here hresolve =>
    obtain ⟨chain, -, rfl⟩ := resolve_eq_ok_iff.1 hresolve
    rw [hresolve, resolve_of_resolved (imported_importAlong d chain).reference]
    exact .ok (hsame _)
  | @deeper _ children hchildren =>
    rw [result_resolve, result_resolve, result_chain_with_children]
    cases (d.chain registry).result with
    | error e => exact .error e
    | ok chain =>
      dsimp only [Except.map]
      rw [importAlong_with_children]
      refine .ok ⟨rfl, ?_⟩
      rw [children_importAlong]
      exact rel_addMissing (fun _ _ h => h.name_eq) hchildren
        (List.forall₂_same.2 fun child _ => .same child)

/-! ### Expanding -/

/-- Expanding goes the same way if some of the declarations have been resolved ahead of time, and gives the
same. -/
theorem ResolvedAhead.expandWithin (h : d.ResolvedAhead registry d') (hd : Allots registry known fresh above d)
    (hd' : Allots registry known' fresh' above' d') (habove : above'.map id = above.map id) :
    (Declaration.expandWithin registry fresh' names d').result =
      (Declaration.expandWithin registry fresh names d).result := by
  induction fresh, names, d using expandWithin.induct generalizing d' known fresh' known' above above' with
  | case1 fresh names d hid ih =>
    have hid' : d'.id ∈ fresh' := by
      rw [hd'.fresh_iff, habove, h.id_eq]
      exact hd.fresh_iff.1 hid
    have hresolve := h.resolve
    rw [result_expandWithin, result_expandWithin, if_pos hid, if_pos hid', h.id_eq, h.name_eq]
    generalize hx : (d.resolve registry).result = x, hx' : (d'.resolve registry).result = x' at hresolve ⊢
    cases hresolve with
    | error e => rfl
    | @ok x x' hsame =>
      obtain ⟨hsettings, hchildren⟩ := hsame
      dsimp only [bind, Except.bind]
      rw [hsettings]
      cases x.settings.pointer? .proxy with
      | some pointer => rfl
      | none =>
        have hids : (above' ++ [d']).map id = (above ++ [d]).map id := by
          rw [List.map_append, List.map_append, habove, List.map_singleton, List.map_singleton, h.id_eq]
        have hmembers := (List.forall₂_and_left (p := (· ∈ x'.children)) _ _).2 ⟨fun _ hmem => hmem, hchildren.flip⟩
        have htraverse := Concur.traverse (Q := Eq)
          (f := Declaration.expandWithin registry (d.id.without fresh) (names ++ [d.name]))
          (g := Declaration.expandWithin registry (d.id.without fresh') (names ++ [d.name])) hmembers.flip ?_
        · refine (htraverse.map_eq fun es es' hes => ?_).symm
          rw [List.forall₂_eq_eq_eq] at hes
          rw [hes]
        · rintro child hchild child' ⟨hchild', hahead⟩
          have hallots' := hd'.child hx' hchild'
          rw [h.id_eq] at hallots'
          exact .of_eq (ih child hahead (hd.child hx hchild) hallots' hids).symm
  | case2 fresh names d hid =>
    have hid' : d'.id ∉ fresh' := by
      rw [hd'.fresh_iff, habove, h.id_eq]
      exact fun hnew => hid (hd.fresh_iff.2 hnew)
    rw [result_expandWithin, result_expandWithin, if_neg hid, if_neg hid', h.name_eq]

theorem ResolvedAhead.expand (h : d.ResolvedAhead registry d') :
    (d'.expand registry).result = (d.expand registry).result :=
  h.expandWithin (allots_expand registry d) (allots_expand registry d') rfl

/-- A tree is built in the same way if some of its declarations have been resolved ahead of time. -/
theorem ResolvedAhead.build (h : d.ResolvedAhead registry d') :
    (d'.build registry).result = (d.build registry).result := by
  rw [Declaration.build, Declaration.build, Terminology.result_build, Terminology.result_build]
  simp only [Logged.traverse, Logged.result_bind, h.expand]

/-! ### One declaration in a tree -/

end Declaration

/-- One item is replaced by another one of its name, and no other item is. -/
theorem Roster.forall₂_put {α : Type} [Named α] {R : α → α → Prop} {items : List α} {item replacement : α}
    (hsame : ∀ x, R x x) (hfound : Roster.find? (Named.name replacement) items = some item)
    (hreplaced : R item replacement) : List.Forall₂ R items (Roster.put replacement items) := by
  induction items with
  | nil => cases hfound
  | cons first rest ih =>
    rw [Roster.find?_cons] at hfound
    rw [Roster.put]
    split at hfound
    · next hname =>
      obtain rfl := Option.some.inj hfound
      rw [if_pos hname]
      exact .cons hreplaced (List.forall₂_same.2 fun x _ => hsame x)
    · next hname =>
      rw [if_neg hname]
      exact .cons (hsame first) (ih hfound)

namespace Declaration

/-- Resolving a declaration in a tree, and putting what comes of it in its place, is resolving ahead of time. -/
theorem resolvedAhead_of_changeAt (hdescend : descend names d = .ok target)
    (hresolve : (target.resolve registry).result = .ok resolved) :
    ∃ d', changeAt (fun _ => resolved) names d = .ok d' ∧ descend names d' = .ok resolved ∧
      d.ResolvedAhead registry d' := by
  induction names generalizing d with
  | nil =>
    obtain rfl := Except.ok.inj hdescend
    exact ⟨resolved, rfl, rfl, .here hresolve⟩
  | cons name rest ih =>
    rw [descend] at hdescend
    cases hchild : d.child? name with
    | none =>
      rw [hchild] at hdescend
      cases hdescend
    | some child =>
      rw [hchild] at hdescend
      obtain ⟨child', hchanged, hdescend', hahead⟩ := ih hdescend
      have hname : child'.name = name := by rw [hahead.name_eq]; exact Roster.name_of_find? hchild
      subst hname
      refine ⟨d.adopt child', ?_, ?_, ?_⟩
      · rw [changeAt, hchild]
        dsimp only
        rw [hchanged]
      · have hfound : (d.adopt child').child? child'.name = some child' :=
          Roster.find?_put_self child' d.children
        rw [descend, hfound]
        exact hdescend'
      · exact .deeper (Roster.forall₂_put .same hchild hahead)

/-- Resolving ahead of time is invisible to a build. If a declaration somewhere in a tree can be resolved, it can be
replaced there by what it is resolved to, and then the tree fails for the same reason, or gives the same
terminology. -/
theorem build_of_resolved_ahead (registry : Option Registry) (d : Declaration) (names : List Name)
    (target resolved : Declaration) (hdescend : descend names d = .ok target)
    (hresolve : (target.resolve registry).result = .ok resolved) :
    ∃ d', changeAt (fun _ => resolved) names d = .ok d' ∧ descend names d' = .ok resolved ∧
      (d'.build registry).result = (d.build registry).result := by
  obtain ⟨d', hchanged, hdescend', hahead⟩ := resolvedAhead_of_changeAt hdescend hresolve
  exact ⟨d', hchanged, hdescend', hahead.build⟩

end Declaration

namespace Terminology.Sample

/-- An editor, who is a person. -/
def editor : Declaration :=
  declaration 21 "editor" [(.reference, .pointer (pointer ["person"])), (.required, .flag true)] []

/-- An entry, which is named as persons are, with its editor. -/
def entry : Declaration := declaration 20 "entry" [(.reference, .pointer (pointer ["name"]))] [editor]

/-- The terminology of an entry. -/
def builtEntry : Terminology := (entry.build (some registry)).result.toOption.get (by decide +kernel)

/-- The editor of an entry can be resolved before the entry is built, which then has the same ten nodes. -/
theorem build_of_entry : Declaration.descend [⟨"editor"⟩] entry = .ok editor ∧
    ∃ resolved changed, (editor.resolve (some registry)).result = .ok resolved ∧ resolved ≠ editor ∧
      entry.changeAt (fun _ => resolved) [⟨"editor"⟩] = .ok changed ∧
      (changed.build (some registry)).result = .ok builtEntry ∧ builtEntry.size = 10 := by
  have hdescend : Declaration.descend [⟨"editor"⟩] entry = .ok editor := rfl
  have hresolve : (editor.resolve (some registry)).result.toOption.isSome := by decide +kernel
  have hother : (editor.resolve (some registry)).result.toOption.map (·.children.map Declaration.name) =
      some [⟨"part"⟩, ⟨"role"⟩, ⟨"roleText"⟩] := by decide +kernel
  have hbuild : (entry.build (some registry)).result = .ok builtEntry := eq_ok_get _
  obtain ⟨changed, hchanged, -, hsame⟩ :=
    Declaration.build_of_resolved_ahead (some registry) entry _ _ _ hdescend (eq_ok_get hresolve)
  refine ⟨hdescend, _, changed, eq_ok_get hresolve, fun heq => ?_, hchanged, hsame.trans hbuild,
    by decide +kernel⟩
  rw [eq_ok_get hresolve, heq] at hother
  cases hother

end Terminology.Sample

end TermAtlas
