import TermAtlas.Office.Reference
import TermAtlas.Proofs.Chains

/-!
# Filing

A folder is filed well if every child, at any depth, is under the key that is its name. Whatever is done to a
folder keeps it so, and does to what the folder says what is done to declarations: adopting puts a child under
its name; importing brings children of folders that are filed well under the keys that they have there, which
are their names; and what changes further down keeps its name, and so stays under the right key.

## What is proved

* `OrderedMap.Keyed.find?_items`, `OrderedMap.Keyed.items_insert` — where each key is a name, keys are as good as
  names.
* `Folder.HoldAll.cases_on_key`, `Folder.HoldAll.insert`, `Folder.HoldAll.addMissing` — what is done to folders under
  keys.
* `Folder.Holds.adopt`, `Folder.Holds.descend`, `Folder.Holds.changeAt`, `Folder.Holds.resolve` — what is done to
  a folder.
* `Folder.id_and_name_of_resolve` — resolving changes neither identity nor name.
* `Cabinet.Holds.declare`, `Cabinet.Holds.lookup`, `Cabinet.Holds.edit` — what is done to a cabinet.
-/

namespace TermAtlas

/-! ### Keys that are names -/

namespace OrderedMap

variable {α : Type} [Named α] {m : OrderedMap Name α} {entries : List (Name × α)} {key : Name} {a : α}

/-- Each key is the name of what is under it. -/
def Keyed (m : OrderedMap Name α) : Prop := ∀ entry ∈ m.entries, entry.1 = Named.name entry.2

omit [Named α] in
theorem mem_write {entry : Name × α} (h : entry ∈ write key a entries) :
    entry = (key, a) ∨ entry ∈ entries := by
  induction entries with
  | nil => exact .inl (List.mem_singleton.1 h)
  | cons other rest ih =>
    rw [write] at h
    split at h
    · exact (List.mem_cons.1 h).imp_right (List.mem_cons_of_mem _)
    · rcases List.mem_cons.1 h with rfl | h
      · exact .inr List.mem_cons_self
      · exact (ih h).imp_right (List.mem_cons_of_mem _)

theorem map_snd_write (h : ∀ entry ∈ entries, entry.1 = Named.name entry.2) (hkey : key = Named.name a) :
    (write key a entries).map Prod.snd = Roster.put a (entries.map Prod.snd) := by
  induction entries with
  | nil => rfl
  | cons other rest ih =>
    obtain ⟨hother, hrest⟩ := List.forall_mem_cons.1 h
    rw [write, List.map_cons, Roster.put, hother, hkey]
    split
    · rfl
    · rw [List.map_cons, ← hkey, ih hrest]

/-- What is added under its name is under its name, and so is the rest. -/
theorem Keyed.insert (h : m.Keyed) (hkey : key = Named.name a) : (m.insert key a).Keyed := by
  intro entry hentry
  rcases mem_write hentry with rfl | hentry
  · exact hkey
  · exact h entry hentry

/-- Adding under a name puts in the place of the one that has it, or last. -/
theorem Keyed.items_insert (h : m.Keyed) (hkey : key = Named.name a) :
    (m.insert key a).items = Roster.put a m.items :=
  map_snd_write h hkey

theorem Keyed.names_items (h : m.Keyed) : Roster.names m.items = m.keys.toList := by
  rw [Roster.names, items, List.map_map, toList_keys]
  exact List.map_congr_left fun entry hentry => (h entry hentry).symm

/-- Where each key is a name, no two names are the same. -/
theorem Keyed.nodup_names_items (h : m.Keyed) : (Roster.names m.items).Nodup := h.names_items ▸ m.keys.nodup

/-- Where each key is a name, looking up a key finds what bears the name. -/
theorem Keyed.find?_items (h : m.Keyed) (name : Name) : Roster.find? name m.items = m.get? name := by
  ext a
  rw [Roster.find?_eq_some_iff h.nodup_names_items, get?_eq_some_iff]
  constructor
  · rintro ⟨ha, rfl⟩
    obtain ⟨entry, hentry, rfl⟩ := List.mem_map.1 ha
    rwa [← h entry hentry]
  · intro ha
    exact ⟨List.mem_map.2 ⟨_, ha, rfl⟩, (h _ ha).symm⟩

end OrderedMap

namespace Folder

/-- Every child, at any depth, is under the key that is its name. -/
inductive Filed : Folder → Prop where
  /-- The children are, and so are those below them. -/
  | intro {f : Folder} : f.children.Keyed → (∀ entry ∈ f.children.entries, Filed entry.2) → Filed f

theorem Filed.keyed {f : Folder} (h : f.Filed) : f.children.Keyed := by
  cases h with
  | intro hkeyed _ => exact hkeyed

theorem Filed.children {f : Folder} (h : f.Filed) : ∀ entry ∈ f.children.entries, entry.2.Filed := by
  cases h with
  | intro _ hbelow => exact hbelow

/-- `f.Holds d`: the folder `f` is filed well and says what the declaration `d` says. -/
structure Holds (f : Folder) (d : Declaration) : Prop where
  /-- It is filed well. -/
  filed : f.Filed
  /-- It says the same. -/
  contents : f.contents = d

/-- `HoldAll all ds`: the folders are under their names, filed well, and say what the declarations say, one after the
other. -/
structure HoldAll (all : OrderedMap Name Folder) (ds : List Declaration) : Prop where
  /-- They are under their names. -/
  keyed : all.Keyed
  /-- They are filed well. -/
  filed : ∀ entry ∈ all.entries, entry.2.Filed
  /-- They say the same. -/
  contents : all.items.map Folder.contents = ds

variable {f g : Folder} {d e : Declaration} {all more : OrderedMap Name Folder} {ds es : List Declaration}
  {key : Name} {keys : List Name}

theorem Holds.id_eq (h : f.Holds d) : d.id = f.id := by
  rw [← h.contents, id_contents]

theorem Holds.name_eq (h : f.Holds d) : d.name = f.name := by
  rw [← h.contents, name_contents]

theorem Holds.settings_eq (h : f.Holds d) : d.settings = f.settings := by
  rw [← h.contents, settings_contents]

theorem Holds.children (h : f.Holds d) : HoldAll f.children d.children := by
  obtain ⟨hfiled, rfl⟩ := h
  exact ⟨hfiled.keyed, hfiled.children, f.children_contents.symm⟩

/-- What makes a folder hold a declaration. -/
theorem Holds.intro (hid : d.id = f.id) (hname : d.name = f.name) (hsettings : d.settings = f.settings)
    (hchildren : HoldAll f.children d.children) : f.Holds d := by
  refine ⟨.intro hchildren.keyed hchildren.filed, ?_⟩
  have hcontents := hchildren.contents
  rw [← children_contents] at hcontents
  obtain ⟨id, name, settings, children⟩ := d
  cases hid
  cases hname
  cases hsettings
  cases hcontents
  cases f
  rfl

/-! ### Folders under keys -/

theorem holdAll_empty : HoldAll ∅ [] := by
  refine ⟨?_, ?_, rfl⟩
  · rintro _ ⟨⟩
  · rintro _ ⟨⟩

/-- There is nothing under a key and nothing of this name, or there is something under the key, which bears it as its
name and holds what is found under the name. -/
theorem HoldAll.cases_on_key (h : HoldAll all ds) (name : Name) :
    (all.get? name = none ∧ Roster.find? name ds = none) ∨
      ∃ f d, all.get? name = some f ∧ Roster.find? name ds = some d ∧ f.Holds d ∧ f.name = name := by
  rw [← h.contents, Roster.find?_map fun f => name_contents f, h.keyed.find?_items]
  cases hfound : all.get? name with
  | none => exact .inl ⟨rfl, rfl⟩
  | some f =>
    have hentry := OrderedMap.get?_eq_some_iff.1 hfound
    exact .inr ⟨f, f.contents, rfl, rfl, ⟨h.filed _ hentry, rfl⟩, (h.keyed _ hentry).symm⟩

/-- What goes under its name goes where its declaration goes. -/
theorem HoldAll.insert (h : HoldAll all ds) (hg : g.Holds e) (hkey : key = g.name) :
    HoldAll (all.insert key g) (Roster.put e ds) := by
  refine ⟨h.keyed.insert hkey, fun entry hentry => ?_, ?_⟩
  · rcases OrderedMap.mem_write hentry with rfl | hentry
    · exact hg.filed
    · exact h.filed entry hentry
  · rw [h.keyed.items_insert hkey, Roster.map_put fun f => name_contents f, h.contents, hg.contents]

/-- A key is taken if the name is. -/
theorem HoldAll.contains_eq (h : HoldAll all ds) (name : Name) :
    all.contains name = (Roster.find? name ds).isSome := by
  rw [Bool.eq_iff_iff, OrderedMap.contains, decide_eq_true_eq, ← OrderedMap.isSome_get?_iff]
  rcases h.cases_on_key name with ⟨hkey, hname⟩ | ⟨f, d, hkey, hname, -⟩ <;> simp [hkey, hname]

/-- What goes under a name that is not taken goes last. -/
theorem HoldAll.insert_of_new (h : HoldAll all ds) (hg : g.Holds e) (hkey : key = g.name)
    (hnew : Roster.find? key ds = none) : HoldAll (all.insert key g) (ds ++ [e]) := by
  have hlast : Roster.put e ds = ds ++ [e] := by
    refine Roster.put_of_not_mem (Roster.find?_eq_none_iff.1 ?_)
    rwa [show Named.name e = key from hg.name_eq.trans hkey.symm]
  exact hlast ▸ h.insert hg hkey

/-- What is imported under the keys that it has elsewhere is what is imported under its names. -/
theorem HoldAll.addMissing (h : HoldAll all ds) (hmore : HoldAll more es) :
    HoldAll (addMissing all more) (Declaration.addMissing ds es) := by
  obtain ⟨hkeyed, hfiled, rfl⟩ := hmore
  unfold Folder.addMissing Declaration.addMissing
  rw [OrderedMap.items]
  have hentries : ∀ entry ∈ more.entries, entry.1 = entry.2.name ∧ entry.2.Filed :=
    fun entry hentry => ⟨hkeyed entry hentry, hfiled entry hentry⟩
  generalize more.entries = entries at hentries ⊢
  induction entries generalizing all ds with
  | nil => exact h
  | cons entry rest ih =>
    obtain ⟨⟨hkey, hentry⟩, hrest⟩ := List.forall_mem_cons.1 hentries
    rw [List.foldl_cons, List.map_cons, List.map_cons, List.foldl_cons]
    refine ih ?_ hrest
    rw [name_contents, ← hkey, h.contains_eq]
    cases hfind : Roster.find? entry.1 ds with
    | some other => exact h
    | none => exact h.insert_of_new ⟨hentry, rfl⟩ hkey hfind

/-! ### Edits -/

theorem holds_new (id : Identity) (name : Name) : (Folder.new id name).Holds (Declaration.new id name) :=
  .intro rfl rfl rfl holdAll_empty

theorem Holds.withSettings (h : f.Holds d) (settings : Settings) :
    (f.withSettings settings).Holds { d with settings } := by
  refine .intro ?_ ?_ ?_ ?_
  · rw [id_withSettings]
    exact h.id_eq
  · rw [name_withSettings]
    exact h.name_eq
  · rw [settings_withSettings]
  · rw [children_withSettings]
    exact h.children

theorem Holds.withChildren (h : f.Holds d) (hall : HoldAll all ds) :
    (f.withChildren all).Holds { d with children := ds } := by
  refine .intro h.id_eq h.name_eq h.settings_eq ?_
  rw [children_withChildren]
  exact hall

theorem Holds.set (h : f.Holds d) (key : Setting.Key) (value : Setting.Value) :
    (f.set key value).Holds (d.set key value) := by
  rw [Folder.set, ← h.settings_eq]
  exact h.withSettings _

theorem Holds.unset (h : f.Holds d) (key : Setting.Key) : (f.unset key).Holds (d.unset key) := by
  rw [Folder.unset, ← h.settings_eq]
  exact h.withSettings _

/-- A child that is put in goes under its name. -/
theorem Holds.adopt (h : f.Holds d) (hg : g.Holds e) : (f.adopt g).Holds (d.adopt e) :=
  h.withChildren (h.children.insert hg rfl)

/-- `x.Holds y`: the edits are the same, of a folder and of a declaration. -/
inductive Edit.Holds : Folder.Edit → Declaration.Edit → Prop where
  /-- The key gets the same value. -/
  | set (key : Setting.Key) (value : Setting.Value) : Holds (.set key value) (.set key value)
  /-- The same key is taken away. -/
  | unset (key : Setting.Key) : Holds (.unset key) (.unset key)
  /-- The same child is added. -/
  | adopt {child : Folder} {d : Declaration} : child.Holds d → Holds (.adopt child) (.adopt d)

theorem Holds.applyAll {edits : List Folder.Edit} {edits' : List Declaration.Edit}
    (hedits : List.Forall₂ Edit.Holds edits edits') (h : f.Holds d) :
    (f.applyAll edits).Holds (d.applyAll edits') := by
  induction hedits generalizing f d with
  | nil => exact h
  | cons hedit _ ih =>
    refine ih ?_
    cases hedit with
    | set key value => exact h.set key value
    | unset key => exact h.unset key
    | adopt hchild => exact h.adopt hchild

theorem name_apply (f : Folder) (edit : Edit) : (f.apply edit).name = f.name := by
  cases edit with
  | set key value => exact name_withSettings f _
  | unset key => exact name_withSettings f _
  | adopt child => rfl

theorem name_applyAll (f : Folder) (edits : List Edit) : (f.applyAll edits).name = f.name := by
  induction edits generalizing f with
  | nil => rfl
  | cons edit rest ih => exact (ih _).trans (name_apply f edit)

/-! ### From key to key -/

theorem Holds.descend (h : f.Holds d) (keys : List Name) : Concur Holds (f.descend keys) (d.descend keys) := by
  induction keys generalizing f d with
  | nil => exact .ok h
  | cons key rest ih =>
    rw [Folder.descend, Declaration.descend, Folder.child?, Declaration.child?]
    obtain ⟨hkey, hname⟩ | ⟨child, e, hkey, hname, hchild, -⟩ := h.children.cases_on_key key
    · rw [hkey, hname]
      exact .error key
    · rw [hkey, hname]
      exact ih hchild

/-- A change that keeps the name of what is found keeps everything under its name. -/
theorem Holds.changeAt {change : Folder → Folder} {change' : Declaration → Declaration} (h : f.Holds d)
    (keys : List Name) (hchange : ∀ g e, f.descend keys = .ok g → g.Holds e → (change g).Holds (change' e) ∧
      (change g).name = g.name) :
    Concur (fun f' d' => f'.Holds d' ∧ f'.name = f.name) (f.changeAt change keys)
      (d.changeAt change' keys) := by
  induction keys generalizing f d with
  | nil => exact .ok (hchange f d rfl h)
  | cons key rest ih =>
    rw [Folder.changeAt, Declaration.changeAt, Folder.child?, Declaration.child?]
    obtain ⟨hkey, hname⟩ | ⟨child, e, hkey, hname, hchild, hbears⟩ := h.children.cases_on_key key
    · rw [hkey, hname]
      exact .error key
    · rw [hkey, hname]
      have hbelow : ∀ g e, child.descend rest = .ok g → g.Holds e → (change g).Holds (change' e) ∧
          (change g).name = g.name := by
        intro g e hg
        refine hchange g e ?_
        rw [Folder.descend, Folder.child?, hkey]
        exact hg
      have hconcur := ih hchild hbelow
      dsimp only
      generalize Folder.changeAt change rest child = x, Declaration.changeAt change' rest e = y at hconcur ⊢
      cases hconcur with
      | error missing => exact .error missing
      | ok hchanged =>
        -- the key is the name of the child that was found, and the child has kept its name
        exact .ok ⟨h.withChildren (h.children.insert hchanged.1 (hchanged.2.trans hbears).symm), rfl⟩

end Folder

/-! ### Cabinets -/

namespace Cabinet

variable {c : Cabinet} {r r' : Registry} {f : Folder} {d : Declaration} {ds : List Declaration}

/-- `c.Holds r`: in the cabinet all roots, and all that is below them, are under their names, and they say what the
roots of the registry say. -/
def Holds (c : Cabinet) (r : Registry) : Prop := Folder.HoldAll c.roots r.roots

theorem holds_empty : Cabinet.empty.Holds Registry.empty := Folder.holdAll_empty

/-- A root that is put in goes under its name. -/
theorem Holds.declare (h : c.Holds r) (hf : f.Holds d) : (c.declare f).Holds (r.declare d) :=
  Folder.HoldAll.insert h hf rfl

/-- Roots of new names that are declared one after the other are there in this order. -/
theorem roots_foldl_declare (h : (Roster.names (r.roots ++ ds)).Nodup) :
    (ds.foldl Registry.declare r).roots = r.roots ++ ds := by
  induction ds generalizing r with
  | nil =>
    rw [List.append_nil]
    rfl
  | cons d rest ih =>
    have hsplit : (Roster.names (r.roots ++ [d] ++ rest)).Nodup := by rwa [List.append_assoc]
    have hnew : Named.name d ∉ Roster.names r.roots := by
      rw [Roster.names, List.map_append] at h
      exact fun hmem => (List.nodup_append.1 h).2.2 _ hmem _ List.mem_cons_self rfl
    have hdeclare : (r.declare d).roots = r.roots ++ [d] := Roster.put_of_not_mem hnew
    rw [List.foldl_cons, ih (hdeclare ▸ hsplit), hdeclare, List.append_assoc]
    rfl

/-- What a cabinet says is the registry that it holds. -/
theorem Holds.contents_eq (h : c.Holds r) : c.contents = r := by
  obtain ⟨-, -, hroots⟩ := h
  have hdeclared : (r.roots.foldl Registry.declare Registry.empty).roots = r.roots := by
    have hnodup : (Roster.names (Registry.empty.roots ++ r.roots)).Nodup := r.distinct
    exact roots_foldl_declare hnodup
  rw [contents, hroots]
  generalize r.roots.foldl Registry.declare Registry.empty = declared at hdeclared
  cases declared
  cases r
  cases hdeclared
  rfl

/-- A root is found under its name, or the same segment leads nowhere. -/
theorem Holds.fromRoot {α β : Type} {R : Name → α → β → Prop} (h : c.Holds r) (p : Pointer)
    {action : List Name → Folder → Except Name α} {action' : List Name → Declaration → Except Name β}
    (haction : ∀ rest root d, root.Holds d → Concur (R root.name) (action rest root) (action' rest d)) :
    Concur (fun x y => R x.1 x.2 y) (c.fromRoot p action) (r.fromRoot p action') := by
  rw [Cabinet.fromRoot, Registry.fromRoot]
  cases p.segments with
  | nil => exact .error _
  | cons first rest =>
    dsimp only
    obtain ⟨hkey, hname⟩ | ⟨root, d, hkey, hname, hheld, rfl⟩ := Folder.HoldAll.cases_on_key h first
    · rw [hkey, hname]
      exact .error _
    · rw [hkey, hname]
      have hconcur := (haction rest root d hheld).mapError (Error.noSuchTerm p)
      dsimp only
      generalize (action rest root).mapError _ = x, Except.mapError _ (action' rest d) = y at hconcur ⊢
      cases hconcur with
      | error e => exact .error e
      | ok hab => exact .ok hab

/-- Look-ups find the same. -/
theorem Holds.lookup (h : c.Holds r) (p : Pointer) : Concur Folder.Holds (c.lookup p) (r.lookup p) := by
  have hconcur := h.fromRoot (R := fun _ => Folder.Holds) p fun rest _ _ hroot => hroot.descend rest
  rw [Cabinet.lookup, Registry.lookup]
  generalize c.fromRoot p Folder.descend = x, r.fromRoot p Declaration.descend = y at hconcur ⊢
  cases hconcur with
  | error e => exact .error e
  | ok hheld => exact .ok hheld

/-- Edits change the same, and keep everything under its name. -/
theorem Holds.edit {edits : List Folder.Edit} {edits' : List Declaration.Edit} (h : c.Holds r) (p : Pointer)
    (hedits : List.Forall₂ Folder.Edit.Holds edits edits') :
    Concur Holds (c.edit p edits) (r.edit p edits') := by
  have hconcur := h.fromRoot (R := fun key (f : Folder) d => f.Holds d ∧ f.name = key) p
    fun rest root d hroot => hroot.changeAt rest fun g e _ hg => ⟨hg.applyAll hedits, g.name_applyAll edits⟩
  exact hconcur.map fun x y hxy => Folder.HoldAll.insert h hxy.1 hxy.2.symm

end Cabinet

/-! ### Importing -/

namespace Folder

variable {f target : Folder} {d e : Declaration} {c : Cabinet} {r : Registry} {fs : List Folder}
  {ds : List Declaration}

theorem map_name_eq (h : List.Forall₂ Holds fs ds) : ds.map Declaration.name = fs.map name := by
  induction h with
  | nil => rfl
  | cons hhead _ ih => rw [List.map_cons, List.map_cons, hhead.name_eq, ih]

theorem isAmong_eq (h : target.Holds e) (hvisited : List.Forall₂ Holds fs ds) :
    e.isAmong ds = fs.any (·.id = target.id) := by
  unfold Declaration.isAmong
  induction hvisited with
  | nil => rfl
  | cons hhead _ ih => rw [List.any_cons, List.any_cons, hhead.id_eq, h.id_eq, ← ih, h.id_eq]

theorem chainFrom_of_none (h : f.settings.pointer? .reference = none) (visited : List Folder) :
    chainFrom c visited f = .ok [] := by
  rw [chainFrom]
  split
  · rfl
  · next hpointer => cases h.symm.trans hpointer

theorem chainFrom_of_some {pointer : Pointer} (h : f.settings.pointer? .reference = some pointer)
    (visited : List Folder) :
    chainFrom c visited f =
      (c.lookup pointer).mapError (fun _ => .badPointer f.name pointer) >>= fun target =>
        if visited.any (·.id = target.id) then .error (.circularReference ((target :: visited).reverse.map name))
        else (chainFrom c (target :: visited) target).map (target :: ·) := by
  rw [chainFrom]
  split
  · next hpointer => cases h.symm.trans hpointer
  · next other hpointer =>
    obtain rfl := Option.some.inj (h.symm.trans hpointer)
    split
    · next hlookup =>
      simp only [hlookup, Except.mapError]
      rfl
    · next target hlookup =>
      simp only [hlookup, Except.mapError, bind, Except.bind]
      split <;> rfl

/-- The chain of a folder is that of the declaration that it holds. -/
theorem Holds.chainFrom (hc : c.Holds r) (hvisited : List.Forall₂ Holds fs ds) (h : f.Holds d) :
    Concur (List.Forall₂ Holds) (chainFrom c fs f) (Declaration.chainFrom (some r) ds d).result := by
  -- there are fewer and fewer identities that are not on the chain yet
  induction hlength : (unvisited c fs).length using Nat.strongRecOn generalizing fs ds f d with
  | _ length ih =>
    rw [Declaration.result_chainFrom, h.settings_eq, h.name_eq]
    cases hreference : f.settings.pointer? .reference with
    | none =>
      rw [chainFrom_of_none hreference]
      exact .ok .nil
    | some pointer =>
      rw [chainFrom_of_some hreference]
      refine ((hc.lookup pointer).mapError _).bind fun target target' hfound htarget => ?_
      have hlonger : List.Forall₂ Holds (target :: fs) (target' :: ds) := .cons htarget hvisited
      rw [isAmong_eq htarget hvisited]
      split
      · rw [List.map_reverse, List.map_reverse, map_name_eq hlonger]
        exact .error _
      · next hnew =>
        have hless := length_unvisited_lt (eq_ok_of_mapError hfound) hnew
        exact (ih _ (hlength ▸ hless) hlonger htarget rfl).map fun _ _ hrest => .cons htarget hrest

theorem Holds.chain {registry : Option Cabinet} {registry' : Option Registry}
    (hregistry : Option.Rel Cabinet.Holds registry registry') (h : f.Holds d) :
    Concur (List.Forall₂ Holds) (f.chain registry) (d.chain registry').result := by
  cases hregistry with
  | some hc => exact Holds.chainFrom hc (.cons h .nil) h
  | none =>
    have hsettings := h.settings_eq
    rw [Folder.chain, Declaration.chain]
    cases hreference : f.settings.pointer? .reference with
    | none =>
      rw [← hsettings] at hreference
      rw [Declaration.chainFrom_of_pointer?_eq_none hreference]
      exact .ok .nil
    | some pointer =>
      rw [← hsettings] at hreference
      rw [Declaration.result_chainFrom_of_registry_eq_none hreference, h.name_eq]
      exact .error _

theorem Holds.absorb (h : f.Holds d) (htarget : target.Holds e) :
    (f.absorb target).Holds (d.absorb e) := by
  have hsettings := h.withSettings (f.settings.onto target.settings)
  rw [Folder.absorb, Declaration.absorb, h.settings_eq, htarget.settings_eq]
  exact hsettings.withChildren (h.children.addMissing htarget.children)

theorem Holds.defaultPath (hchain : List.Forall₂ Holds fs ds) (h : f.Holds d) :
    (f.defaultPath fs).Holds (d.defaultPath ds) := by
  have hlast := rel_getElem? hchain (fs.length - 1)
  rw [← List.getLast?_eq_getElem?, hchain.length_eq, ← List.getLast?_eq_getElem?] at hlast
  unfold Folder.defaultPath Declaration.defaultPath
  rw [h.settings_eq]
  generalize fs.getLast? = last, ds.getLast? = last' at hlast ⊢
  cases hlast with
  | none => exact h
  | some hlast =>
    cases f.settings.get? .path with
    | none =>
      dsimp only
      rw [hlast.name_eq]
      exact h.set _ _
    | some value => exact h

/-- Importing changes neither identity nor name. -/
theorem id_and_name_importAlong (f : Folder) (chain : List Folder) :
    (f.importAlong chain).id = f.id ∧ (f.importAlong chain).name = f.name := by
  have habsorb : (chain.foldl absorb f).id = f.id ∧ (chain.foldl absorb f).name = f.name := by
    induction chain generalizing f with
    | nil => exact ⟨rfl, rfl⟩
    | cons target rest ih =>
      obtain ⟨hid, hname⟩ := ih (f.absorb target)
      exact ⟨hid.trans (id_withSettings f _), hname.trans (name_withSettings f _)⟩
  rw [importAlong, unset, id_withSettings, name_withSettings, Folder.defaultPath]
  split
  · rw [set, id_withSettings, name_withSettings]
    exact habsorb
  · exact habsorb

/-- Resolving changes neither identity nor name. -/
theorem id_and_name_of_resolve {registry : Option Cabinet} {resolved : Folder}
    (h : f.resolve registry = .ok resolved) : resolved.id = f.id ∧ resolved.name = f.name := by
  rw [Folder.resolve] at h
  cases hchain : f.chain registry with
  | error e =>
    rw [hchain] at h
    cases h
  | ok chain =>
    rw [hchain] at h
    obtain rfl := Except.ok.inj h
    exact f.id_and_name_importAlong chain

/-- What a folder imports is what its declaration imports, and it stays filed well. -/
theorem Holds.importAlong (hchain : List.Forall₂ Holds fs ds) (h : f.Holds d) :
    (f.importAlong fs).Holds (d.importAlong ds) := by
  have hfold : (fs.foldl Folder.absorb f).Holds (ds.foldl Declaration.absorb d) := by
    induction hchain generalizing f d with
    | nil => exact h
    | cons htarget _ ih => exact ih (h.absorb htarget)
  exact (hfold.defaultPath hchain).unset _

theorem Holds.resolve {registry : Option Cabinet} {registry' : Option Registry}
    (hregistry : Option.Rel Cabinet.Holds registry registry') (h : f.Holds d) :
    Concur Holds (f.resolve registry) (d.resolve registry').result := by
  rw [Declaration.result_resolve]
  exact (h.chain hregistry).map fun _ _ hchain => h.importAlong hchain

end Folder

end TermAtlas
