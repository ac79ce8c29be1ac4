import TermAtlas.Declaration.Basic

/-!
# Folders

A folder says about a term what a declaration says, but it keeps each child under a key. The key is given
when the child is put in: adopting a child puts it under its name, importing puts it under the key that it
has elsewhere, and a change further down leaves it under the key where it was found. Children are found by
their keys, whatever their names are. That key and name are always the same is a theorem, and not how
folders are made.

In the type below the map of the children is given by its keys and the child at each place, as for setting
values; `children` and `withChildren` go to and fro.
-/

namespace TermAtlas

/-- What is under the keys, in order. -/
def OrderedMap.items {α β : Type} (m : OrderedMap α β) : List β := m.entries.map Prod.snd

/-- What is said about a term, with the children under keys. -/
inductive Folder where
  /-- Who it is, what it says, and its children: their keys, in order, and the child at each place. -/
  | mk (id : Identity) (name : Name) (settings : Settings) (keys : OrderedSet Name)
      (childAt : Fin keys.size → Folder)

namespace Folder

/-- Who the folder is; copies share it. -/
def id : Folder → Identity
  | mk id _ _ _ _ => id

/-- The name of the term. -/
def name : Folder → Name
  | mk _ name _ _ _ => name

/-- The settings of the term. -/
def settings : Folder → Settings
  | mk _ _ settings _ _ => settings

/-- The children under their keys. -/
def children : Folder → OrderedMap Name Folder
  | mk _ _ _ keys childAt => OrderedMap.ofFamily keys childAt

/-- The folder with other settings. -/
def withSettings (f : Folder) (settings : Settings) : Folder :=
  match f with
  | mk id name _ keys childAt => mk id name settings keys childAt

/-- The folder with other children. -/
def withChildren (f : Folder) (children : OrderedMap Name Folder) : Folder :=
  mk f.id f.name f.settings children.keys children.valueAt

instance : Named Folder := ⟨Folder.name⟩

/-- What the folder says, without the keys. -/
def contents : Folder → Declaration
  | mk id name settings _ childAt => ⟨id, name, settings, List.ofFn fun place => (childAt place).contents⟩

/-- A folder that says nothing but a name. -/
def new (id : Identity) (name : Name) : Folder := mk id name ∅ ∅ nofun

/-- Gives a key of the settings a value. -/
def set (f : Folder) (key : Setting.Key) (value : Setting.Value) : Folder :=
  f.withSettings (f.settings.insert key value)

/-- Takes a key of the settings away. -/
def unset (f : Folder) (key : Setting.Key) : Folder := f.withSettings (f.settings.erase key)

/-- Puts a child under its name, in the place of the one that is there or else last. -/
def adopt (f child : Folder) : Folder := f.withChildren (f.children.insert child.name child)

/-- The child under a key. -/
def child? (f : Folder) (key : Name) : Option Folder := f.children.get? key

/-- What is found from key to key, or the first key that leads nowhere. -/
def descend : List Name → Folder → Except Name Folder
  | [], f => .ok f
  | key :: rest, f =>
    match f.child? key with
    | none => .error key
    | some child => descend rest child

/-- The folder with what is found from key to key changed, or the first key that leads nowhere. What has
changed stays under the keys that lead to it. -/
def changeAt (change : Folder → Folder) : List Name → Folder → Except Name Folder
  | [], f => .ok (change f)
  | key :: rest, f =>
    match f.child? key with
    | none => .error key
    | some child =>
      match changeAt change rest child with
      | .error missing => .error missing
      | .ok child => .ok (f.withChildren (f.children.insert key child))

/-- A change to a folder. -/
inductive Edit where
  /-- Gives a key of the settings a value. -/
  | set (key : Setting.Key) (value : Setting.Value)
  /-- Takes a key of the settings away. -/
  | unset (key : Setting.Key)
  /-- Adds a child. -/
  | adopt (child : Folder)

/-- The folder after a change. -/
def apply (f : Folder) : Edit → Folder
  | .set key value => f.set key value
  | .unset key => f.unset key
  | .adopt child => f.adopt child

/-- The folder after some changes. -/
def applyAll (f : Folder) (edits : List Edit) : Folder := edits.foldl apply f

/-! ### Making folders -/

@[simp]
theorem id_withSettings (f : Folder) (settings : Settings) : (f.withSettings settings).id = f.id := by
  cases f
  rfl

@[simp]
theorem name_withSettings (f : Folder) (settings : Settings) : (f.withSettings settings).name = f.name := by
  cases f
  rfl

@[simp]
theorem settings_withSettings (f : Folder) (settings : Settings) :
    (f.withSettings settings).settings = settings := by
  cases f
  rfl

@[simp]
theorem children_withSettings (f : Folder) (settings : Settings) :
    (f.withSettings settings).children = f.children := by
  cases f
  rfl

@[simp]
theorem id_withChildren (f : Folder) (children : OrderedMap Name Folder) :
    (f.withChildren children).id = f.id := rfl

@[simp]
theorem name_withChildren (f : Folder) (children : OrderedMap Name Folder) :
    (f.withChildren children).name = f.name := rfl

@[simp]
theorem settings_withChildren (f : Folder) (children : OrderedMap Name Folder) :
    (f.withChildren children).settings = f.settings := rfl

@[simp]
theorem children_withChildren (f : Folder) (children : OrderedMap Name Folder) :
    (f.withChildren children).children = children :=
  OrderedMap.ofFamily_valueAt children

/-- A key need not be the name of what is under it. -/
example :
    let part := Folder.new ⟨1⟩ ⟨"part"⟩
    let f := (Folder.new ⟨0⟩ ⟨"name"⟩).withChildren ((∅ : OrderedMap Name Folder).insert ⟨"other"⟩ part)
    (f.child? ⟨"other"⟩).map name = some ⟨"part"⟩ ∧ (f.child? ⟨"part"⟩).map name = none := by
  decide

/-! ### What folders say -/

@[simp]
theorem id_contents (f : Folder) : f.contents.id = f.id := by
  cases f
  rfl

@[simp]
theorem name_contents (f : Folder) : f.contents.name = f.name := by
  cases f
  rfl

@[simp]
theorem settings_contents (f : Folder) : f.contents.settings = f.settings := by
  cases f
  rfl

/-- The children say what they say, one after the other. -/
theorem children_contents (f : Folder) : f.contents.children = f.children.items.map contents := by
  cases f with
  | mk id name settings keys childAt =>
    have hitems : (OrderedMap.ofFamily keys childAt).items = List.ofFn childAt :=
      List.map_snd_zip (Nat.le_of_eq (OrderedMap.length_ofFn keys childAt))
    rw [children, hitems, List.map_ofFn]
    rfl

/-- A child under a key says what it says among the others. -/
theorem contents_mem_of_mem_children {f child : Folder} {key : Name} (h : (key, child) ∈ f.children.entries) :
    child.contents ∈ f.contents.children := by
  rw [children_contents]
  exact List.mem_map_of_mem (List.mem_map_of_mem h)

/-- What is found brings no identity that is not there above. -/
theorem identities_subset_of_descend {keys : List Name} {f target : Folder}
    (h : descend keys f = .ok target) : target.contents.identities ⊆ f.contents.identities := by
  induction keys generalizing f with
  | nil =>
    obtain rfl := Except.ok.inj h
    exact fun _ hid => hid
  | cons key rest ih =>
    rw [descend] at h
    split at h
    · cases h
    · next child hchild =>
      have hmem := contents_mem_of_mem_children (OrderedMap.get?_eq_some_iff.1 hchild)
      intro id hid
      rw [Declaration.identities_eq, List.mem_cons]
      exact .inr (Declaration.mem_identitiesOfAll.2 ⟨child.contents, hmem, ih h hid⟩)

end Folder

end TermAtlas
