import Mathlib.Data.List.Forall2
import TermAtlas.Proofs.Apart
import TermAtlas.Proofs.Mirroring

/-!
# Two builds side by side

Two registries are alike when they hold the same declarations but for the settings, and the settings of
each declaration are related. If the relation is a congruence, that is, if it says the same about
references, proxies and the presence of paths, and importing keeps it, then both builds go the same way:
they fail for the same reason, or give terminologies that are alike in their turn. What is related stays
related step by step, along chains, through expansions and in the layout, and the proxies of both lead to
the same places, as one mirrors the other.

## What is proved

* `Concur.bind`, `Concur.traverse` — what concurs up to some point and goes on alike concurs.
* `Declaration.result_chainFrom`, `Declaration.result_expandWithin` — the results of chains and expansions
  alone, without what is recorded.
* `Declaration.Alike.chainFrom`, `Declaration.Alike.resolve`, `Declaration.Alike.expandWithin` — what is
  alike before is alike afterwards.
* `Expansion.Alike.nodes` — trees that are alike are laid out alike.
* `Registry.Alike.build` — registries that are alike are built alike.
-/

namespace TermAtlas

/-! ### Computations that concur -/

/-- Both computations fail for the same reason, or both succeed and their results are related. -/
inductive Concur {ε α β : Type} (R : α → β → Prop) : Except ε α → Except ε β → Prop where
  /-- The same reason. -/
  | error (e : ε) : Concur R (.error e) (.error e)
  /-- Related results. -/
  | ok {a : α} {b : β} : R a b → Concur R (.ok a) (.ok b)

section Concur

variable {ε δ α β γ κ : Type} {R : α → β → Prop} {Q : γ → κ → Prop} {x : Except ε α} {y : Except ε β}

theorem Concur.of_eq {x y : Except ε α} (h : x = y) : Concur Eq x y := by
  subst h
  cases x with
  | error e => exact .error e
  | ok a => exact .ok rfl

/-- What goes on in related ways after computations that concur concurs. -/
theorem Concur.bind (h : Concur R x y) {f : α → Except ε γ} {g : β → Except ε κ}
    (hnext : ∀ a b, x = .ok a → R a b → Concur Q (f a) (g b)) : Concur Q (x >>= f) (y >>= g) := by
  cases h with
  | error e => exact .error e
  | ok hab => exact hnext _ _ rfl hab

theorem Concur.imp {S : α → β → Prop} (h : Concur R x y) (hRS : ∀ a b, R a b → S a b) : Concur S x y := by
  cases h with
  | error e => exact .error e
  | ok hab => exact .ok (hRS _ _ hab)

theorem Concur.map (h : Concur R x y) {f : α → γ} {g : β → κ} (hfg : ∀ a b, R a b → Q (f a) (g b)) :
    Concur Q (x.map f) (y.map g) := by
  cases h with
  | error e => exact .error e
  | ok hab => exact .ok (hfg _ _ hab)

theorem Concur.mapError (h : Concur R x y) (f : ε → δ) : Concur R (x.mapError f) (y.mapError f) := by
  cases h with
  | error e => exact .error (f e)
  | ok hab => exact .ok hab

/-- The results that are related are those that there are. -/
theorem Concur.and_eq_ok (h : Concur R x y) : Concur (fun a b => R a b ∧ x = .ok a ∧ y = .ok b) x y := by
  cases h with
  | error e => exact .error e
  | ok hab => exact .ok ⟨hab, rfl, rfl⟩

/-- What concurs gives the same if related results are mapped to the same. -/
theorem Concur.map_eq (h : Concur R x y) {f : α → γ} {g : β → γ} (hfg : ∀ a b, R a b → f a = g b) :
    x.map f = y.map g := by
  cases h with
  | error e => rfl
  | ok hab => exact congrArg Except.ok (hfg _ _ hab)

/-- What concurs with something that succeeds does so, too. -/
theorem Concur.exists_of_ok (h : Concur R x y) {a : α} (hx : x = .ok a) : ∃ b, y = .ok b ∧ R a b := by
  cases h with
  | error e => cases hx
  | ok hab => exact ⟨_, rfl, Except.ok.inj hx ▸ hab⟩

/-- What concurs fails for the same reason. -/
theorem Concur.eq_error_iff (h : Concur R x y) {e : ε} : y = .error e ↔ x = .error e := by
  cases h with
  | error cause => exact ⟨fun he => congrArg Except.error (Except.error.inj he),
      fun he => congrArg Except.error (Except.error.inj he)⟩
  | ok hab => exact ⟨nofun, nofun⟩

theorem bind_eq_ok_iff {f : α → Except ε γ} {c : γ} :
    (x >>= f) = .ok c ↔ ∃ a, x = .ok a ∧ f a = .ok c := by
  cases x with
  | error e => simp [Bind.bind, Except.bind]
  | ok a => simp [Bind.bind, Except.bind]

theorem eq_ok_of_mapError {f : ε → δ} {a : α} (h : x.mapError f = .ok a) : x = .ok a := by
  cases x with
  | error e => cases h
  | ok b => rw [Except.ok.inj h]

/-- Traversals of related items concur if each step does. -/
theorem Concur.traverse {R : α → β → Prop} {f : α → Logged γ} {g : β → Logged κ} {as : List α}
    {bs : List β} (h : List.Forall₂ R as bs)
    (hstep : ∀ a ∈ as, ∀ b, R a b → Concur Q (f a).result (g b).result) :
    Concur (List.Forall₂ Q) (Logged.traverse f as).result (Logged.traverse g bs).result := by
  induction h with
  | nil => exact .ok .nil
  | @cons a b as bs hab _ ih =>
    rw [Logged.traverse, Logged.traverse, Logged.result_bind, Logged.result_bind]
    refine (hstep a List.mem_cons_self b hab).bind fun c k _ hck => ?_
    rw [Logged.result_map, Logged.result_map]
    exact (ih fun a ha => hstep a (List.mem_cons_of_mem _ ha)).map fun _ _ hrest => .cons hck hrest

end Concur

theorem rel_getElem? {α β : Type} {R : α → β → Prop} {as : List α} {bs : List β}
    (h : List.Forall₂ R as bs) (i : Nat) : Option.Rel R as[i]? bs[i]? := by
  induction h generalizing i with
  | nil => exact .none
  | cons hab _ ih =>
    cases i with
    | zero => exact .some hab
    | succ i => exact ih i

/-- Related items of the same name are found under the same names. -/
theorem Roster.rel_find? {α β : Type} [Named α] [Named β] {R : α → β → Prop} {as : List α} {bs : List β}
    (hname : ∀ a b, R a b → Named.name b = Named.name a) (h : List.Forall₂ R as bs) (name : Name) :
    Option.Rel R (Roster.find? name as) (Roster.find? name bs) := by
  induction h with
  | nil => exact .none
  | cons hab _ ih =>
    rw [Roster.find?_cons, Roster.find?_cons, hname _ _ hab]
    split
    · exact .some hab
    · exact ih

/-! ### Results alone -/

namespace Declaration

/-- The result of following a chain. -/
theorem result_chainFrom (r : Registry) (visited : List Declaration) (d : Declaration) :
    (chainFrom (some r) visited d).result =
      match d.settings.pointer? .reference with
      | none => .ok []
      | some pointer =>
        (r.lookup pointer).mapError (fun _ => .badPointer d.name pointer) >>= fun target =>
          if target.isAmong visited then
            .error (.circularReference ((target :: visited).reverse.map name))
          else (chainFrom (some r) (target :: visited) target).result.map (target :: ·) := by
  cases hreference : d.settings.pointer? .reference with
  | none =>
    rw [chainFrom]
    split
    · rfl
    · next value hvalue =>
      rw [Settings.pointer?, hvalue, Option.bind_some] at hreference
      split
      · rfl
      · next pointer hpointer => cases hreference.symm.trans hpointer
  | some pointer =>
    rw [chainFrom]
    split
    · next hvalue =>
      rw [Settings.pointer?, hvalue] at hreference
      cases hreference
    · next value hvalue =>
      rw [Settings.pointer?, hvalue, Option.bind_some] at hreference
      split
      · next hpointer => cases hreference.symm.trans hpointer
      · next other hpointer =>
        obtain rfl := Option.some.inj (hreference.symm.trans hpointer)
        dsimp only
        split
        · next hlookup =>
          simp only [hlookup, Except.mapError]
          rfl
        · next target hlookup =>
          simp only [hlookup, Except.mapError, bind, Except.bind]
          split <;> rfl

/-- A chain ends where there is no reference, or begins with what the reference leads to. -/
theorem chainFrom_eq_ok_iff {r : Registry} {visited chain : List Declaration} {d : Declaration} :
    (chainFrom (some r) visited d).result = .ok chain ↔
      (d.settings.pointer? .reference = none ∧ chain = []) ∨
        ∃ pointer target rest, d.settings.pointer? .reference = some pointer ∧
          r.lookup pointer = .ok target ∧ target.isAmong visited = false ∧ chain = target :: rest ∧
          (chainFrom (some r) (target :: visited) target).result = .ok rest := by
  rw [result_chainFrom]
  cases d.settings.pointer? .reference with
  | none =>
    constructor
    · intro h
      exact .inl ⟨rfl, (Except.ok.inj h).symm⟩
    · rintro (⟨-, rfl⟩ | ⟨_, _, _, ⟨⟩, -⟩)
      rfl
  | some pointer =>
    dsimp only
    constructor
    · intro h
      obtain ⟨target, hfound, h⟩ := bind_eq_ok_iff.1 h
      split at h
      · cases h
      · next hnew =>
        obtain ⟨rest, hrest, rfl⟩ := Logged.result_map_eq_ok_iff.1 h
        exact .inr ⟨pointer, target, rest, rfl, eq_ok_of_mapError hfound, by simpa using hnew, rfl, hrest⟩
    · rintro (⟨⟨⟩, -⟩ | ⟨_, target, rest, ⟨⟩, hlookup, hnew, rfl, hrest⟩)
      refine bind_eq_ok_iff.2 ⟨target, by rw [hlookup]; rfl, ?_⟩
      rw [if_neg (by simp [hnew]), hrest]
      rfl

/-- The result of importing along the own chain. -/
theorem result_resolve (d : Declaration) (registry : Option Registry) :
    (d.resolve registry).result = (d.chain registry).result.map d.importAlong := by
  rw [Declaration.resolve, Logged.result_bind]
  cases (d.chain registry).result with
  | error e => rfl
  | ok chain =>
    dsimp only [bind, Except.bind]
    split <;> rfl

/-- The result of an expansion. -/
theorem result_expandWithin (registry : Option Registry) (fresh : List Identity) (above : List Name)
    (d : Declaration) :
    (expandWithin registry fresh above d).result =
      if d.id ∈ fresh then
        (d.resolve registry).result >>= fun resolved =>
          match resolved.settings.pointer? .proxy with
          | some pointer => .ok (.proxy d.name pointer resolved.settings)
          | none =>
            (Logged.traverse (expandWithin registry (d.id.without fresh) (above ++ [d.name]))
              resolved.children).result.map (.term d.name (Traits.ofSettings d.name resolved.settings))
      else .error (.circularReference (above ++ [d.name])) := by
  rw [expandWithin]
  split
  · rw [Logged.result_bind]
    congr 1
    funext resolved
    cases resolved.settings.pointer? .proxy with
    | some pointer => rfl
    | none =>
      simp only [bind, Logged.result_note, Logged.result_notes]
      cases (Logged.traverse _ _).result <;> rfl
  · rfl

end Declaration

/-! ### Related settings -/

/-- Related settings have the same references, proxies and presence of a path, and importing keeps them
related. -/
structure Settings.Congruence (S : Settings → Settings → Prop) : Prop where
  /-- The same reference. -/
  reference : ∀ s s', S s s' → s'.pointer? .reference = s.pointer? .reference
  /-- The same proxy. -/
  proxy : ∀ s s', S s s' → s'.pointer? .proxy = s.pointer? .proxy
  /-- A path in both or in neither. -/
  path : ∀ s s', S s s' → (s'.get? .path).isSome = (s.get? .path).isSome
  /-- Laying settings over others keeps them related. -/
  onto : ∀ s s' below below', S s s' → S below below' → S (s.onto below) (s'.onto below')
  /-- So does giving both the same path. -/
  set : ∀ s s' text, S s s' → S (s.insert .path (.text text)) (s'.insert .path (.text text))
  /-- So does taking the reference away. -/
  unset : ∀ s s', S s s' → S (s.erase .reference) (s'.erase .reference)

/-- The same declarations but for the settings, which are related one by one. -/
inductive Declaration.Alike (S : Settings → Settings → Prop) : Declaration → Declaration → Prop where
  /-- The same identity and name, related settings, and children that are alike. -/
  | intro {d d' : Declaration} : d'.id = d.id → d'.name = d.name → S d.settings d'.settings →
      List.Forall₂ (Alike S) d.children d'.children → Alike S d d'

/-- The same roots but for the settings, which are related one by one. -/
def Registry.Alike (S : Settings → Settings → Prop) (r r' : Registry) : Prop :=
  List.Forall₂ (Declaration.Alike S) r.roots r'.roots

variable {S : Settings → Settings → Prop} {r r' : Registry} {d d' target target' : Declaration}

namespace Declaration

theorem Alike.id_eq (h : d.Alike S d') : d'.id = d.id := by
  cases h with
  | intro hid _ _ _ => exact hid

theorem Alike.name_eq (h : d.Alike S d') : d'.name = d.name := by
  cases h with
  | intro _ hname _ _ => exact hname

theorem Alike.settings (h : d.Alike S d') : S d.settings d'.settings := by
  cases h with
  | intro _ _ hsettings _ => exact hsettings

theorem Alike.children (h : d.Alike S d') : List.Forall₂ (Alike S) d.children d'.children := by
  cases h with
  | intro _ _ _ hchildren => exact hchildren

mutual

/-- The identities are the same. -/
theorem Alike.identities_eq {d d' : Declaration} (h : d.Alike S d') : d'.identities = d.identities := by
  obtain ⟨id, name, settings, children⟩ := d
  have hchildren := identitiesOfAll_eq h.children
  rw [Declaration.identities_eq d', Declaration.identities_eq, h.id_eq, hchildren]

theorem identitiesOfAll_eq {ds ds' : List Declaration} (h : List.Forall₂ (Alike S) ds ds') :
    identitiesOfAll ds' = identitiesOfAll ds := by
  cases ds with
  | nil =>
    cases h
    rfl
  | cons d rest =>
    cases h with
    | cons hd hrest => rw [identitiesOfAll, identitiesOfAll, hd.identities_eq, identitiesOfAll_eq hrest]

end

theorem map_name_eq {ds ds' : List Declaration} (h : List.Forall₂ (Alike S) ds ds') :
    ds'.map name = ds.map name := by
  induction h with
  | nil => rfl
  | cons hd _ ih => rw [List.map_cons, List.map_cons, hd.name_eq, ih]

theorem isAmong_eq (h : d.Alike S d') {ds ds' : List Declaration} (hds : List.Forall₂ (Alike S) ds ds') :
    d'.isAmong ds' = d.isAmong ds := by
  unfold isAmong
  induction hds with
  | nil => rfl
  | cons hother _ ih => rw [List.any_cons, List.any_cons, ih, hother.id_eq, h.id_eq]

/-- The same descendants are found. -/
theorem Alike.descend (h : d.Alike S d') (names : List Name) :
    Concur (Alike S) (Declaration.descend names d) (Declaration.descend names d') := by
  induction names generalizing d d' with
  | nil => exact .ok h
  | cons name rest ih =>
    have hfind := Roster.rel_find? (fun _ _ hab => hab.name_eq) h.children name
    rw [Declaration.descend, Declaration.descend, child?, child?]
    generalize Roster.find? name d.children = found, Roster.find? name d'.children = found' at hfind ⊢
    cases hfind with
    | none => exact .error name
    | some hchild => exact ih hchild

end Declaration

/-- The same declarations are found. -/
theorem Registry.Alike.lookup (h : r.Alike S r') (p : Pointer) :
    Concur (Declaration.Alike S) (r.lookup p) (r'.lookup p) := by
  rw [Registry.lookup, Registry.lookup, fromRoot, fromRoot]
  cases p.segments with
  | nil => exact .error _
  | cons first rest =>
    have hfind := Roster.rel_find? (fun _ _ hab => hab.name_eq) h first
    dsimp only
    generalize Roster.find? first r.roots = found, Roster.find? first r'.roots = found' at hfind ⊢
    cases hfind with
    | none => exact .error _
    | some hroot => exact (hroot.descend rest).mapError _

theorem Registry.Alike.identities_eq (h : r.Alike S r') : r'.identities = r.identities :=
  Declaration.identitiesOfAll_eq h

namespace Declaration

/-! ### Importing -/

/-- The chains are alike. -/
theorem Alike.chainFrom (hS : Settings.Congruence S) (hr : r.Alike S r') {visited visited' : List Declaration}
    (hvisited : List.Forall₂ (Alike S) visited visited') (hd : d.Alike S d') :
    Concur (List.Forall₂ (Alike S)) (Declaration.chainFrom (some r) visited d).result
      (Declaration.chainFrom (some r') visited' d').result := by
  -- there are fewer and fewer identities that are not on the chain yet
  induction hlength : (unvisited (some r) visited).length using Nat.strongRecOn
    generalizing visited visited' d d' with
  | _ length ih =>
    rw [result_chainFrom, result_chainFrom, hS.reference _ _ hd.settings, hd.name_eq]
    cases d.settings.pointer? .reference with
    | none => exact .ok .nil
    | some pointer =>
      refine ((hr.lookup pointer).mapError _).bind fun target target' hfound htarget => ?_
      have hlonger : List.Forall₂ (Alike S) (target :: visited) (target' :: visited') :=
        .cons htarget hvisited
      rw [isAmong_eq htarget hvisited]
      split
      · have hnames := map_name_eq hlonger
        rw [List.map_reverse, List.map_reverse, hnames]
        exact .error _
      · next hnew =>
        have hless := length_unvisited_lt (eq_ok_of_mapError hfound) (by simpa using hnew)
        exact (ih _ (hlength ▸ hless) hlonger htarget rfl).map fun _ _ hrest => .cons htarget hrest

/-- Related children that are added to related ones give related ones, if names are the same. -/
theorem rel_addMissing {R : Declaration → Declaration → Prop} (hname : ∀ x y, R x y → y.name = x.name)
    {siblings siblings' more more' : List Declaration} (h : List.Forall₂ R siblings siblings')
    (hmore : List.Forall₂ R more more') :
    List.Forall₂ R (addMissing siblings more) (addMissing siblings' more') := by
  unfold addMissing
  induction hmore generalizing siblings siblings' with
  | nil => exact h
  | @cons child child' _ _ hchild _ ih =>
    rw [List.foldl_cons, List.foldl_cons]
    refine ih ?_
    have hfind := Roster.rel_find? hname h child.name
    rw [hname child child' hchild]
    generalize Roster.find? child.name siblings = found, Roster.find? child.name siblings' = found' at hfind ⊢
    cases hfind with
    | none => exact List.rel_append h (.cons hchild .nil)
    | some _ => exact h

theorem Alike.absorb (hS : Settings.Congruence S) (hd : d.Alike S d') (htarget : target.Alike S target') :
    (d.absorb target).Alike S (d'.absorb target') :=
  .intro hd.id_eq hd.name_eq (hS.onto _ _ _ _ hd.settings htarget.settings)
    (rel_addMissing (fun _ _ h => h.name_eq) hd.children htarget.children)

theorem Alike.defaultPath (hS : Settings.Congruence S) (hd : d.Alike S d') {chain chain' : List Declaration}
    (hchain : List.Forall₂ (Alike S) chain chain') : (d.defaultPath chain).Alike S (d'.defaultPath chain') := by
  have hlast := rel_getElem? hchain (chain.length - 1)
  have hpath := hS.path _ _ hd.settings
  rw [← List.getLast?_eq_getElem?, hchain.length_eq, ← List.getLast?_eq_getElem?] at hlast
  unfold Declaration.defaultPath
  generalize chain.getLast? = last, chain'.getLast? = last' at hlast ⊢
  cases hlast with
  | none => exact hd
  | @some last last' hlast =>
    cases hfound : d.settings.get? .path with
    | none =>
      rw [hfound, Option.isSome_none, Option.isSome_eq_false_iff, Option.isNone_iff_eq_none] at hpath
      rw [hpath]
      dsimp only
      rw [hlast.name_eq]
      exact .intro hd.id_eq hd.name_eq (hS.set _ _ _ hd.settings) hd.children
    | some value =>
      rw [hfound, Option.isSome_some, Option.isSome_iff_exists] at hpath
      obtain ⟨value', hfound'⟩ := hpath
      rw [hfound']
      exact hd

/-- What has been imported along chains that are alike is alike. -/
theorem Alike.importAlong (hS : Settings.Congruence S) (hd : d.Alike S d') {chain chain' : List Declaration}
    (hchain : List.Forall₂ (Alike S) chain chain') : (d.importAlong chain).Alike S (d'.importAlong chain') := by
  have hfold : (chain.foldl Declaration.absorb d).Alike S (chain'.foldl Declaration.absorb d') := by
    induction hchain generalizing d d' with
    | nil => exact hd
    | cons htarget _ ih => exact ih (hd.absorb hS htarget)
  have hdefault := hfold.defaultPath hS hchain
  exact .intro hdefault.id_eq hdefault.name_eq (hS.unset _ _ hdefault.settings) hdefault.children

/-- So the resolved declarations are alike. -/
theorem Alike.resolve (hS : Settings.Congruence S) (hr : r.Alike S r') (hd : d.Alike S d') :
    Concur (Alike S) (d.resolve (some r)).result (d'.resolve (some r')).result := by
  rw [result_resolve, result_resolve]
  exact (Alike.chainFrom hS hr (.cons hd .nil) hd).map fun _ _ hchain => hd.importAlong hS hchain

end Declaration

/-! ### Expanding -/

/-- The same trees but for the traits of terms and the settings of proxies, which are related. -/
inductive Expansion.Alike (S : Settings → Settings → Prop) (T : Traits → Traits → Prop) :
    Expansion → Expansion → Prop where
  /-- Terms of the same name with related traits and children that are alike. -/
  | term {name : Name} {traits traits' : Traits} {children children' : List Expansion} :
      T traits traits' → List.Forall₂ (Alike S T) children children' →
      Alike S T (.term name traits children) (.term name traits' children')
  /-- Proxies of the same name and pointer with related settings. -/
  | proxy {name : Name} {pointer : Pointer} {settings settings' : Settings} : S settings settings' →
      Alike S T (.proxy name pointer settings) (.proxy name pointer settings')

variable {T : Traits → Traits → Prop} {fresh : List Identity} {names : List Name}

/-- Expansions are alike if related settings come to related traits. -/
theorem Declaration.Alike.expandWithin (hS : Settings.Congruence S)
    (hT : ∀ name s s', S s s' → T (Traits.ofSettings name s) (Traits.ofSettings name s'))
    (hr : r.Alike S r') (hd : d.Alike S d') :
    Concur (Expansion.Alike S T) (d.expandWithin (some r) fresh names).result
      (d'.expandWithin (some r') fresh names).result := by
  induction fresh, names, d using expandWithin.induct generalizing d' with
  | case1 fresh names d hfresh ih =>
    have hfresh' : d'.id ∈ fresh := hd.id_eq ▸ hfresh
    rw [result_expandWithin, result_expandWithin, if_pos hfresh, if_pos hfresh', hd.id_eq, hd.name_eq]
    refine (hd.resolve hS hr).bind fun resolved resolved' _ hresolved => ?_
    rw [hS.proxy _ _ hresolved.settings]
    cases resolved.settings.pointer? .proxy with
    | some pointer => exact .ok (.proxy hresolved.settings)
    | none =>
      have hchildren := Concur.traverse (Q := Expansion.Alike S T) hresolved.children
        fun child _ child' hchild => ih child hchild
      exact hchildren.map fun _ _ hall => .term (hT _ _ _ hresolved.settings) hall
  | case2 fresh names d hfresh =>
    have hfresh' : d'.id ∉ fresh := hd.id_eq ▸ hfresh
    rw [result_expandWithin, result_expandWithin, if_neg hfresh, if_neg hfresh', hd.name_eq]
    exact .error _

theorem Declaration.Alike.expand (hS : Settings.Congruence S)
    (hT : ∀ name s s', S s s' → T (Traits.ofSettings name s) (Traits.ofSettings name s'))
    (hr : r.Alike S r') (hd : d.Alike S d') :
    Concur (Expansion.Alike S T) (d.expand (some r)).result (d'.expand (some r')).result := by
  rw [Declaration.expand, Declaration.expand, hd.identities_eq, Option.map_some, Option.map_some,
    hr.identities_eq]
  exact hd.expandWithin hS hT hr

/-! ### Laying out -/

variable {W : XPaths → XPaths → Prop} {e e' : Expansion} {start : Nat}

namespace Expansion

theorem Alike.name_eq (h : e.Alike S T e') : e'.name = e.name := by
  cases h <;> rfl

mutual

theorem Alike.size_eq {e e' : Expansion} (h : e.Alike S T e') : e'.size = e.size := by
  cases e with
  | proxy name pointer settings =>
    cases h
    rfl
  | term name traits children =>
    cases h with
    | term _ hchildren => rw [size, size, sizeOfAll_eq hchildren]

theorem sizeOfAll_eq {es es' : List Expansion} (h : List.Forall₂ (Alike S T) es es') :
    sizeOfAll es' = sizeOfAll es := by
  cases es with
  | nil =>
    cases h
    rfl
  | cons e rest =>
    cases h with
    | cons he hrest => rw [sizeOfAll, sizeOfAll, he.size_eq, sizeOfAll_eq hrest]

end

theorem links_eq {es es' : List Expansion} (h : List.Forall₂ (Alike S T) es es') (start : Nat) :
    links start es' = links start es := by
  induction h generalizing start with
  | nil => rfl
  | cons he _ ih => rw [links, links, ih, he.name_eq, he.size_eq]

end Expansion

/-- The same nodes but for the traits and paths of terms and the settings of proxies, which are related. -/
inductive Node.Alike (S : Settings → Settings → Prop) (T : Traits → Traits → Prop)
    (W : XPaths → XPaths → Prop) : Node → Node → Prop where
  /-- Terms that are the same but for related traits and paths. -/
  | term {id : Nat} {name : Name} {parent : Option Nat} {children : List Link} {traits traits' : Traits}
      {paths paths' : XPaths} : T traits traits' → W paths paths' →
      Alike S T W (.term ⟨id, name, parent, traits, children, paths⟩)
        (.term ⟨id, name, parent, traits', children, paths'⟩)
  /-- Proxies that are the same but for related settings. -/
  | proxy {id : Nat} {name : Name} {parent : Option Nat} {pointer : Pointer} {settings settings' : Settings} :
      S settings settings' →
      Alike S T W (.proxy ⟨id, name, parent, pointer, settings⟩)
        (.proxy ⟨id, name, parent, pointer, settings'⟩)

/-- What terms of related traits add to related paths are related paths. -/
def XPaths.Congruence (T : Traits → Traits → Prop) (W : XPaths → XPaths → Prop) : Prop :=
  ∀ above above' traits traits', Option.Rel W above above' → T traits traits' →
    W (below above traits) (below above' traits')

mutual

/-- Trees that are alike are laid out alike, below terms of the same number with related paths. -/
theorem Expansion.Alike.nodes (hW : XPaths.Congruence T W) {e e' : Expansion} {start : Nat}
    {above above' : Option (Nat × XPaths)} (h : e.Alike S T e')
    (hnumber : above'.map (·.1) = above.map (·.1))
    (hpaths : Option.Rel W (above.map (·.2)) (above'.map (·.2))) :
    List.Forall₂ (Node.Alike S T W) (e.nodes start above) (e'.nodes start above') := by
  cases e with
  | proxy name pointer settings =>
    cases h with
    | proxy hsettings =>
      rw [Expansion.nodes, Expansion.nodes, hnumber]
      exact .cons (.proxy hsettings) .nil
  | term name traits children =>
    cases h with
    | term htraits hchildren =>
      have hbelow := hW _ _ _ _ hpaths htraits
      rw [Expansion.nodes, Expansion.nodes, hnumber, links_eq hchildren]
      exact .cons (.term htraits hbelow) (nodesOfAll_alike hW hchildren rfl (.some hbelow))

theorem Expansion.nodesOfAll_alike (hW : XPaths.Congruence T W) {es es' : List Expansion} {start : Nat}
    {above above' : Option (Nat × XPaths)} (h : List.Forall₂ (Expansion.Alike S T) es es')
    (hnumber : above'.map (·.1) = above.map (·.1))
    (hpaths : Option.Rel W (above.map (·.2)) (above'.map (·.2))) :
    List.Forall₂ (Node.Alike S T W) (nodesOfAll start above es) (nodesOfAll start above' es') := by
  cases es with
  | nil =>
    cases h
    exact .nil
  | cons e rest =>
    cases h with
    | cons he hrest =>
      rw [nodesOfAll, nodesOfAll, he.size_eq]
      exact List.rel_append (he.nodes hW hnumber hpaths) (nodesOfAll_alike hW hrest hnumber hpaths)

end

/-! ### Building -/

theorem Node.Alike.mirrors {node node' : Node} (h : node.Alike S T W node') :
    node.Mirrors (fun id => id) node' := by
  cases h with
  | term _ _ => exact .term rfl (map_renumber_id _).symm
  | proxy _ => exact .proxy rfl rfl Option.map_id'.symm rfl

/-- The same roots, and nodes that are alike one by one. -/
structure Terminology.Alike (S : Settings → Settings → Prop) (T : Traits → Traits → Prop)
    (W : XPaths → XPaths → Prop) (t t' : Terminology) : Prop where
  /-- The same roots. -/
  roots : t'.roots = t.roots
  /-- Nodes that are alike. -/
  nodes : List.Forall₂ (Node.Alike S T W) t.nodes t'.nodes

namespace Terminology

variable {t t' : Terminology}

theorem ofForest_alike (hW : XPaths.Congruence T W) {forest forest' : List Expansion}
    (h : List.Forall₂ (Expansion.Alike S T) forest forest') :
    (ofForest forest).Alike S T W (ofForest forest') :=
  ⟨Expansion.links_eq h 0, Expansion.nodesOfAll_alike hW h rfl .none⟩

/-- Terminologies that are alike mirror each other under the same numbers. -/
theorem Alike.mirrors (h : t.Alike S T W t') : t.Mirrors (fun id => id) (fun _ => True) t' := by
  refine mirrors_of_same (fun id => ?_) fun name => by rw [child?, child?, scope, scope, h.roots]
  have hnode := rel_getElem? h.nodes id
  rw [node?, node?]
  generalize t.nodes[id]? = found, t'.nodes[id]? = found' at hnode ⊢
  cases hnode with
  | none => exact .none
  | some hnode => exact .some hnode.mirrors

/-- Their proxies lead to the same places. -/
theorem Alike.checkLinks_eq (h : t.Alike S T W t') : t'.checkLinks = t.checkLinks :=
  h.mirrors.checkLinks_eq (h.nodes.imp fun _ _ hnode => hnode.mirrors)

theorem result_build (registry : Option Registry) (declarations : List Declaration) :
    (build registry declarations).result =
      (Logged.traverse (fun d => d.expand registry) declarations).result >>= fun forest =>
        (ofForest forest).checkLinks.result.map fun _ => ofForest forest := by
  rw [build, Logged.result_bind]
  congr 1
  funext forest
  rw [Logged.result_bind]
  cases (ofForest forest).checkLinks.result <;> rfl

end Terminology

theorem Registry.result_build (r : Registry) :
    r.build.result = (Terminology.build (some r) r.roots).result := by
  rw [build, Logged.result_bind]
  cases (Terminology.build (some r) r.roots).result <;> rfl

/-- Registries that are alike are built alike. -/
theorem Registry.Alike.build (hS : Settings.Congruence S)
    (hT : ∀ name s s', S s s' → T (Traits.ofSettings name s) (Traits.ofSettings name s'))
    (hW : XPaths.Congruence T W) (h : r.Alike S r') :
    Concur (Terminology.Alike S T W) r.build.result r'.build.result := by
  rw [Registry.result_build, Registry.result_build, Terminology.result_build, Terminology.result_build]
  have hforest := Concur.traverse (Q := Expansion.Alike S T) h
    fun d _ d' hd => hd.expand hS hT h
  refine hforest.bind fun forest forest' _ hall => ?_
  have halike := Terminology.ofForest_alike hW hall
  rw [halike.checkLinks_eq]
  cases (Terminology.ofForest forest).checkLinks.result with
  | error e => exact .error e
  | ok _ => exact .ok halike

end TermAtlas
