import TermAtlas.Proofs.Chains
import TermAtlas.Proofs.Layering
import TermAtlas.Workspace.Command

/-!
# What is imported

A declaration that is resolved takes over what it does not say itself, from the nearest declaration on its chain
that says it. Where values are mappings they are taken over entry by entry, and a value that is no mapping stands
for itself: it hides what is further away if it is the nearest one, and is passed over if it is not. Children are
taken over as they are, each name from the nearest declaration that has it.

Absorbing one more declaration extends what is known of the values under a key (`Inherits.absorb`), and so it is
known for a chain of any length (`inherits_foldl_absorb`). Afterwards there is no reference any more, and so
nothing is left to be resolved.

## What is proved

* `inherits_foldl_absorb` — which value a key has after a chain was absorbed.
* `addMissing_eq`, `children_foldl_absorb` — which children there are then, and in which order.
* `resolve_of_resolved` — a declaration without a reference is resolved already.
* `imported_of_resolve` — what resolving does, or why it fails.
-/

namespace TermAtlas

open Setting

namespace Roster

variable {α : Type} [Named α]

/-- The items whose names are not taken, of each name the first one. -/
def newcomers (taken : List Name) : List α → List α
  | [] => []
  | item :: rest =>
    if Named.name item ∈ taken then newcomers taken rest
    else item :: newcomers (taken ++ [Named.name item]) rest

end Roster

namespace Declaration

/-- The values that some declarations have under a key, in order. -/
def held (key : Key) (ds : List Declaration) : List Value := ds.filterMap (·.settings.get? key)

/-- `Inherits values v`: of the values under a key, the nearest one first, `v` is what is inherited. -/
inductive Inherits : List Value → Option Value → Prop where
  /-- Nothing from nowhere. -/
  | nothing : Inherits [] none
  /-- The nearest value, if it is no mapping. -/
  | plain {v : Value} {rest : List Value} : v.asMapping? = none → Inherits (v :: rest) (some v)
  /-- If it is one, a mapping that has the entries of all mappings, each from the nearest one that has it. -/
  | mapping {m merged : OrderedMap String Value} {rest : List Value} :
      (∀ label, merged.get? label = (m :: rest.filterMap Value.asMapping?).findSome? (·.get? label)) →
      Inherits (.ofMapping m :: rest) (some (.ofMapping merged))

/-- What has become of `d` by importing along a chain. -/
structure Imported (d : Declaration) (chain : List Declaration) (resolved : Declaration) : Prop where
  /-- It is still who it was. -/
  id_eq : resolved.id = d.id
  name_eq : resolved.name = d.name
  /-- It refers to nothing any more. -/
  reference : resolved.settings.get? .reference = none
  /-- Values are inherited; that of the path if there is one. -/
  inherits : ∀ key, key ≠ .reference → (key = .path → held .path (d :: chain) ≠ []) →
    Inherits (held key (d :: chain)) (resolved.settings.get? key)
  /-- Else the path is the name of the last declaration on the chain, if the chain has one. -/
  path : held .path (d :: chain) = [] →
    resolved.settings.get? .path = chain.getLast?.map fun last => .text last.name.text
  /-- Under each name there is the child of the nearest declaration that has one. -/
  child : ∀ name, resolved.child? name = (d :: chain).findSome? (·.child? name)
  /-- The own children come first, and then those first met along the chain. -/
  children : resolved.children =
    d.children ++ Roster.newcomers (Roster.names d.children) (chain.flatMap Declaration.children)

variable {registry : Option Registry} {d target resolved : Declaration} {chain met : List Declaration}
  {siblings more : List Declaration} {key : Key} {values : List Value} {v : Option Value} {w : Value}
  {e : Error}

/-! ### Settings -/

theorem inherits_single (v : Value) : Inherits [v] (some v) := by
  cases hv : v.asMapping? with
  | none => exact .plain hv
  | some m =>
    rw [Value.asMapping?_eq_some_iff] at hv
    subst hv
    refine .mapping fun label => ?_
    cases h : m.get? label <;> simp [h]

/-- One value more, further away than all others. -/
theorem Inherits.further (h : Inherits values v) (w : Value) :
    Inherits (values ++ [w]) (some (v.elim w (Settings.overlayValue · w))) := by
  cases h with
  | nothing => exact inherits_single w
  | @plain v rest hv =>
    have hwins : Settings.overlayValue v w = v := by simp [Settings.overlayValue, hv]
    rw [Option.elim_some, hwins]
    exact .plain hv
  | @mapping m merged rest hmerged =>
    rw [Option.elim_some, Settings.overlayValue, Value.asMapping?_ofMapping, List.cons_append]
    cases hw : w.asMapping? with
    | none =>
      refine .mapping fun label => ?_
      simpa [List.filterMap_append, hw] using hmerged label
    | some n =>
      refine .mapping fun label => ?_
      have hmappings : (rest ++ [w]).filterMap Value.asMapping? = rest.filterMap Value.asMapping? ++ [n] := by
        rw [List.filterMap_append, List.filterMap_cons_some hw, List.filterMap_nil]
      rw [OrderedMap.get?_overlay, hmerged, hmappings, ← List.cons_append, List.findSome?_append,
        List.findSome?_singleton]

theorem held_append (key : Key) (ds more : List Declaration) :
    held key (ds ++ more) = held key ds ++ held key more := List.filterMap_append

theorem held_singleton (key : Key) (d : Declaration) : held key [d] = (d.settings.get? key).toList := by
  cases h : d.settings.get? key <;> simp [held, h]

theorem get?_absorb (d target : Declaration) (key : Key) : (d.absorb target).settings.get? key =
    (d.settings.get? key).merge Settings.overlayValue (target.settings.get? key) :=
  Settings.get?_onto d.settings target.settings key

/-- Absorbing a declaration adds its value behind those that have been met. -/
theorem Inherits.absorb (h : Inherits (held key met) (d.settings.get? key)) (target : Declaration) :
    Inherits (held key (met ++ [target])) ((d.absorb target).settings.get? key) := by
  rw [get?_absorb, held_append, held_singleton]
  cases target.settings.get? key with
  | none => rwa [Option.toList_none, List.append_nil, Option.merge_none_right]
  | some w =>
    have hfurther := h.further w
    rw [Option.toList_some]
    generalize d.settings.get? key = v at hfurther ⊢
    cases v with
    | none => rwa [Option.merge_none_left]
    | some v => exact hfurther

/-- What is inherited along a chain. -/
theorem inherits_foldl_absorb (h : Inherits (held key met) (d.settings.get? key)) :
    Inherits (held key (met ++ chain)) ((chain.foldl absorb d).settings.get? key) := by
  induction chain generalizing met d with
  | nil => rwa [List.append_nil]
  | cons target rest ih =>
    have hrest := ih (h.absorb target)
    rwa [List.append_assoc, List.singleton_append] at hrest

theorem inherits_along (d : Declaration) (chain : List Declaration) (key : Key) :
    Inherits (held key (d :: chain)) ((chain.foldl absorb d).settings.get? key) := by
  have hown : Inherits (held key [d]) (d.settings.get? key) := by
    rw [held_singleton]
    cases d.settings.get? key with
    | none => exact .nothing
    | some v => exact inherits_single v
  exact inherits_foldl_absorb hown

/-- Where the nearest value is a mapping, a mapping is inherited, entry by entry. -/
theorem Inherits.exists_mapping {m : OrderedMap String Value} (h : Inherits (.ofMapping m :: values) v) :
    ∃ merged, v = some (.ofMapping merged) ∧ ∀ label,
      merged.get? label = (m :: values.filterMap Value.asMapping?).findSome? (·.get? label) := by
  generalize hall : Value.ofMapping m :: values = all at h
  cases h with
  | nothing => cases hall
  | plain hplain =>
    obtain ⟨rfl, -⟩ := List.cons.inj hall
    rw [Value.asMapping?_ofMapping] at hplain
    cases hplain
  | @mapping n merged rest hmerged =>
    obtain ⟨hfirst, rfl⟩ := List.cons.inj hall
    have hmapping : some m = some n := by
      rw [← Value.asMapping?_ofMapping m, hfirst, Value.asMapping?_ofMapping]
    obtain rfl := Option.some.inj hmapping
    exact ⟨merged, rfl, hmerged⟩

/-- Where the nearest value is no mapping, it is what is inherited. -/
theorem Inherits.eq_of_plain (h : Inherits (w :: values) v) (hplain : w.asMapping? = none) : v = some w := by
  generalize hall : w :: values = all at h
  cases h with
  | nothing => cases hall
  | plain _ => rw [(List.cons.inj hall).1]
  | mapping _ =>
    rw [(List.cons.inj hall).1, Value.asMapping?_ofMapping] at hplain
    cases hplain

/-- There is a value exactly if there is one somewhere. -/
theorem Inherits.eq_none_iff (h : Inherits values v) : v = none ↔ values = [] := by
  cases h <;> simp

/-! ### Children -/

theorem addMissing_eq (siblings more : List Declaration) :
    addMissing siblings more = siblings ++ Roster.newcomers (Roster.names siblings) more := by
  unfold addMissing
  induction more generalizing siblings with
  | nil => rw [List.foldl_nil, Roster.newcomers, List.append_nil]
  | cons child rest ih =>
    rw [List.foldl_cons, Roster.newcomers]
    cases hfound : Roster.find? child.name siblings with
    | some other =>
      have htaken : Named.name child ∈ Roster.names siblings := by
        by_contra hnew
        cases hfound.symm.trans (Roster.find?_eq_none_iff.2 hnew)
      rw [if_pos htaken]
      exact ih siblings
    | none =>
      have hnew : Named.name child ∉ Roster.names siblings := Roster.find?_eq_none_iff.1 hfound
      have hnames : Roster.names (siblings ++ [child]) = Roster.names siblings ++ [Named.name child] := by
        simp [Roster.names]
      have hrest := ih (siblings ++ [child])
      rw [hnames, List.append_assoc, List.singleton_append] at hrest
      rw [if_neg hnew]
      exact hrest

/-- What is found among siblings that were added to: the one that was there, or else the first that was to be
added. -/
theorem find?_addMissing (name : Name) (siblings more : List Declaration) :
    Roster.find? name (addMissing siblings more) =
      (Roster.find? name siblings).or (Roster.find? name more) := by
  unfold addMissing
  induction more generalizing siblings with
  | nil => simp
  | cons child rest ih =>
    have hcons : Roster.find? name (child :: rest) =
        (Roster.find? name [child]).or (Roster.find? name rest) :=
      Roster.find?_append name [child] rest
    rw [List.foldl_cons, ih, hcons]
    cases hfound : Roster.find? child.name siblings with
    | none => rw [Roster.find?_append, Option.or_assoc]
    | some other =>
      by_cases hname : child.name = name
      · rw [← hname, hfound]
        rfl
      · have hother : Roster.find? name [child] = none := if_neg hname
        rw [hother, Option.none_or]

theorem addMissing_append (siblings more further : List Declaration) :
    addMissing siblings (more ++ further) = addMissing (addMissing siblings more) further :=
  List.foldl_append

theorem children_foldl_absorb (d : Declaration) (chain : List Declaration) :
    (chain.foldl absorb d).children = addMissing d.children (chain.flatMap Declaration.children) := by
  induction chain generalizing d with
  | nil => rfl
  | cons target rest ih =>
    rw [List.foldl_cons, ih, List.flatMap_cons, addMissing_append]
    rfl

theorem children_importAlong (d : Declaration) (chain : List Declaration) :
    (d.importAlong chain).children = addMissing d.children (chain.flatMap Declaration.children) := by
  obtain ⟨settings, heq⟩ := d.importAlong_eq chain
  rw [heq]
  exact children_foldl_absorb d chain

theorem find?_flatMap_children (name : Name) (ds : List Declaration) :
    Roster.find? name (ds.flatMap Declaration.children) = ds.findSome? (·.child? name) := by
  induction ds with
  | nil => rfl
  | cons d rest ih =>
    rw [List.flatMap_cons, Roster.find?_append, ih, List.findSome?_cons]
    rw [child?]
    cases Roster.find? name d.children <;> rfl

/-! ### Resolving -/

theorem get?_defaultPath (d : Declaration) (chain : List Declaration) (key : Key) :
    (d.defaultPath chain).settings.get? key = if key = .path then
      (d.settings.get? .path).or (chain.getLast?.map fun last => .text last.name.text)
    else d.settings.get? key := by
  unfold defaultPath
  cases hlast : chain.getLast? with
  | none =>
    split_ifs with hkey
    · rw [hkey, Option.map_none, Option.or_none]
    · rfl
  | some last =>
    cases hpath : d.settings.get? .path with
    | none =>
      dsimp only
      rw [set, OrderedMap.get?_insert]
      rfl
    | some v =>
      dsimp only
      split_ifs with hkey
      · rw [hkey, hpath, Option.some_or]
      · rfl

/-- What importing along a chain leaves under a key. -/
theorem get?_importAlong (d : Declaration) (chain : List Declaration) (key : Key) :
    (d.importAlong chain).settings.get? key = if key = .reference then none
      else ((chain.foldl absorb d).defaultPath chain).settings.get? key :=
  OrderedMap.get?_erase ((chain.foldl absorb d).defaultPath chain).settings .reference key

/-- What does not refer to anything is resolved already. -/
theorem resolve_of_resolved (h : d.settings.get? .reference = none) (registry : Option Registry) :
    d.resolve registry = pure d := by
  have hpointer : d.settings.pointer? .reference = none := by
    rw [Settings.pointer?, h]
    rfl
  have hchain : d.chain registry = pure [] := by
    rw [chain, chainFrom_of_pointer?_eq_none hpointer, h]
    rfl
  have hunset : d.unset .reference = d := by
    rw [unset, OrderedMap.erase_of_get?_eq_none h]
    cases d
    rfl
  have himport : d.importAlong [] = d := hunset
  unfold Declaration.resolve
  rw [hchain, pure_bind, if_neg (not_not_intro rfl), himport]
  rfl

/-- What importing along a chain does. -/
theorem imported_importAlong (d : Declaration) (chain : List Declaration) :
    Imported d chain (d.importAlong chain) where
  id_eq := (d.id_and_name_importAlong chain).1
  name_eq := (d.id_and_name_importAlong chain).2
  reference := by rw [get?_importAlong, if_pos rfl]
  inherits key hreference hpath := by
    have h := inherits_along d chain key
    rw [get?_importAlong, if_neg hreference, get?_defaultPath]
    split_ifs with hkey
    · subst hkey
      obtain ⟨v, hv⟩ := Option.ne_none_iff_exists'.1 (mt h.eq_none_iff.1 (hpath rfl))
      rwa [hv, Option.some_or, ← hv]
    · exact h
  path hnone := by
    have h := inherits_along d chain .path
    rw [get?_importAlong, if_neg Key.noConfusion, get?_defaultPath, if_pos rfl, h.eq_none_iff.2 hnone,
      Option.none_or]
  child name := by
    rw [child?, children_importAlong, find?_addMissing, find?_flatMap_children, List.findSome?_cons, child?]
    cases Roster.find? name d.children <;> rfl
  children := by rw [children_importAlong, addMissing_eq]

end Declaration

/-! ### Resolving drafts -/

/-- An action goes on after one that records nothing. -/
theorem Action.bind_eq_of_ok {α β : Type} {x : Action α} {w w' : Workspace} {a : α}
    (h : x w = ([], .ok (a, w'))) (f : α → Action β) : (x >>= f) w = f a w' := by
  simp [bind, h]

namespace Workspace

theorem registry?_eq (label : Option String) (w : Workspace) : registry? label w =
    ([], .ok (label.map fun name => (w.registries.get? name).getD Registry.empty, w)) := by
  cases label <;> rfl

theorem draftAt_eq {w : Workspace} {draft : String} {top d : Declaration} {path : List Name}
    (hdraft : w.drafts.get? draft = some top) (hdescend : top.descend path = .ok d) :
    draftAt draft path w = ([], .ok (d, w)) := by
  have hfound : Workspace.draft draft w = ([], .ok (top, w)) := by
    rw [Workspace.draft, Action.bind_eq_of_ok (rfl : Action.workspace w = ([], .ok (w, w))), hdraft]
    rfl
  rw [draftAt, Action.bind_eq_of_ok hfound, hdescend]
  rfl

end Workspace

namespace Declaration

variable {registry : Option Registry} {d : Declaration} {e : Error}

/-- A draft that cannot be resolved stays as it was, and so does all else in the workspace. -/
theorem perform_resolve_of_error (herror : (d.resolve registry).result = .error e) {w : Workspace}
    {draft : String} {top : Declaration} {path : List Name} {label : Option String}
    (hdraft : w.drafts.get? draft = some top) (hdescend : top.descend path = .ok d)
    (hregistry : label.map (fun name => (w.registries.get? name).getD Registry.empty) = registry) :
    ((Command.resolve draft path label).perform.perform w).2 = (.error (.error e), w) := by
  have hperform : (Command.resolve draft path label).perform w =
      ((d.resolve registry).log, .error (.error e)) := by
    rw [Command.perform, Action.bind_eq_of_ok (Workspace.registry?_eq label w), hregistry,
      Action.bind_eq_of_ok (Workspace.draftAt_eq hdraft hdescend)]
    simp [bind, Action.ofLogged, herror, Except.mapError, Except.map]
  rw [Action.perform, hperform]

/-- Resolving fails as following the chain does, and then a draft stays as it was. If there is a chain, values and
children are taken over from the nearest declaration that has them, mappings entry by entry; without any path the
name of the last declaration on the chain becomes the path. No reference is left, and so to resolve once more
changes nothing, whatever the registry. -/
theorem imported_of_resolve (registry : Option Registry) (d : Declaration) :
    (∀ e, (d.chain registry).result = .error e → (d.resolve registry).result = .error e ∧
      ∀ (w : Workspace) draft top path label, w.drafts.get? draft = some top → top.descend path = .ok d →
        label.map (fun name => (w.registries.get? name).getD Registry.empty) = registry →
        ((Command.resolve draft path label).perform.perform w).2 = (.error (.error e), w)) ∧
    ∀ chain, (d.chain registry).result = .ok chain → ∃ resolved,
      (d.resolve registry).result = .ok resolved ∧ Imported d chain resolved ∧
        ∀ other, resolved.resolve other = pure resolved := by
  constructor
  · intro e hchain
    have herror : (d.resolve registry).result = .error e := by
      rw [result_resolve, hchain]
      rfl
    exact ⟨herror, fun w draft top path label => perform_resolve_of_error herror⟩
  · intro chain hchain
    have himported := imported_importAlong d chain
    refine ⟨d.importAlong chain, ?_, himported, resolve_of_resolved himported.reference⟩
    rw [result_resolve, hchain]
    rfl

end Declaration

namespace Terminology.Sample

open Declaration

/-- Works, and books, which are works. -/
def library : Registry where
  roots := [
    declaration 0 "work" [(.attributes, .ofMapping (OrderedMap.ofList [
        ("kind", .text "work"), ("language", .text "en")]))]
      [declaration 1 "title" [] [], declaration 2 "date" [] []],
    declaration 3 "book" [(.reference, .pointer (pointer ["work"])), (.attributes, .text "any")]
      [declaration 4 "title" [] [], declaration 5 "isbn" [] []]]
  distinct := by decide

/-- A declaration of novels, which are books. -/
def novel : Declaration :=
  declaration 6 "novel" [(.reference, .pointer (pointer ["book"])),
    (.attributes, .ofMapping (OrderedMap.ofList [("kind", .text "novel")]))] [declaration 7 "plot" [] []]

/-- A workspace with a draft that leads into a circle of references. -/
def desk : Workspace :=
  ⟨6, (∅ : OrderedMap String Declaration).insert "draft" story,
    (∅ : OrderedMap String Registry).insert "persons" referring, ∅⟩

/-- Novels get the path of works, their kind is their own, and their language that of works, as what books say
is no mapping. Of the titles they get that of books. The draft that leads into a circle stays as it was. -/
theorem import_of_novel_and_story :
    (∃ resolved, (novel.resolve (some library)).result = .ok resolved ∧
      resolved.settings.get? .path = some (.text "work") ∧
      (∃ m, resolved.settings.get? .attributes = some (.ofMapping m) ∧
        m.get? "kind" = some (.text "novel") ∧ m.get? "language" = some (.text "en")) ∧
      resolved.child? ⟨"title"⟩ = some (declaration 4 "title" [] []) ∧
      Roster.names resolved.children = [⟨"plot"⟩, ⟨"title"⟩, ⟨"isbn"⟩, ⟨"date"⟩] ∧
      resolved.resolve none = pure resolved) ∧
    ((Command.resolve "draft" [] (some "persons")).perform.perform desk).2 =
      (.error (.error (.circularReference [⟨"story"⟩, ⟨"cause"⟩, ⟨"effect"⟩, ⟨"cause"⟩])), desk) := by
  have hchain : (novel.chain (some library)).result = .ok [library.roots[1], library.roots[0]] :=
    chain_eq_ok_iff_walk.2 ⟨library.roots[0], .cons rfl (.cons rfl .nil), by decide +kernel, rfl⟩
  have hcircular : (story.chain (some referring)).result =
      .error (.circularReference [⟨"story"⟩, ⟨"cause"⟩, ⟨"effect"⟩, ⟨"cause"⟩]) := by
    have hnext : referred? (some referring) referring.roots[3] = some referring.roots[2] := rfl
    exact chain_eq_error_iff_walk.2
      ⟨_, _, .cons rfl (.cons rfl .nil), by decide +kernel, .back hnext (by decide +kernel)⟩
  obtain ⟨-, hok⟩ := imported_of_resolve (some library) novel
  obtain ⟨resolved, hresolved, himported, hagain⟩ := hok _ hchain
  obtain ⟨herror, -⟩ := imported_of_resolve (some referring) story
  have hattributes := himported.inherits .attributes Key.noConfusion nofun
  obtain ⟨m, hm, hentries⟩ := hattributes.exists_mapping
  refine ⟨⟨resolved, hresolved, himported.path rfl, ⟨m, hm, hentries "kind", hentries "language"⟩,
    himported.child _, ?_, hagain none⟩, ?_⟩
  · rw [himported.children]
    rfl
  · exact (herror _ hcircular).2 desk "draft" story [] (some "persons") rfl rfl rfl

end Terminology.Sample

end TermAtlas
