import TermAtlas.Pointer.Basic

/-!
# Rosters

Siblings are kept in a list, in the order of their declaration, and each is found under its own name.
Adding one takes the place of the sibling that has its name, or goes last.

## What is proved

* `find?_put_self`, `find?_put_of_ne` — what is found after adding.
* `names_put` — the names stay as they are, or the new one is added last.
* `nodup_names_put`, `nodup_map_put` — adding keeps names apart, and whatever else the new item has of
  its own.
* `put_put` — the last one of a name that was added stays.
* `put_put_of_find?`, `without_put` — adding can be undone: by adding again what was there, or by taking
  away what has no predecessor.
* `find?_eq_some_iff`, `find?_eq_of_perm` — looking up where names are apart.
* `put_cases` — an item takes the place of the one that has its name, or goes last.
* `map_put`, `find?_map` — adding and looking up do not depend on what else there is to an item.
-/

namespace TermAtlas

/-- Things that bear a name. -/
class Named (α : Type) where
  name : α → Name

namespace Roster

variable {α : Type} [Named α]

/-- The names, in order. -/
def names (items : List α) : List Name := items.map Named.name

/-- The first item of this name. -/
@[specialize]
def find? (name : Name) : List α → Option α
  | [] => none
  | item :: rest => if Named.name item = name then some item else find? name rest

/-- The items with `item` in the place of the first one of its name, or else last. -/
@[specialize]
def put (item : α) : List α → List α
  | [] => [item]
  | other :: rest =>
    if Named.name other = Named.name item then item :: rest else other :: put item rest

/-- The items without the first one of this name. -/
def without (name : Name) (items : List α) : List α := items.eraseP (Named.name · = name)

@[simp]
theorem names_nil : names ([] : List α) = [] := rfl

@[simp]
theorem names_cons (item : α) (rest : List α) :
    names (item :: rest) = Named.name item :: names rest := rfl

@[simp]
theorem find?_nil (name : Name) : find? name ([] : List α) = none := rfl

theorem find?_cons (name : Name) (item : α) (rest : List α) :
    find? name (item :: rest) = if Named.name item = name then some item else find? name rest := rfl

/-- The first item of a name is the first that satisfies the test for this name. -/
theorem find?_eq (name : Name) (items : List α) :
    find? name items = items.find? (Named.name · = name) := by
  induction items with
  | nil => rfl
  | cons item rest ih => by_cases h : Named.name item = name <;> simp [find?_cons, h, ih]

theorem find?_append (name : Name) (items more : List α) :
    find? name (items ++ more) = (find? name items).or (find? name more) := by
  rw [find?_eq, find?_eq, find?_eq, List.find?_append]

theorem find?_eq_none_iff {name : Name} {items : List α} :
    find? name items = none ↔ name ∉ names items := by
  induction items with
  | nil => simp
  | cons item rest ih =>
    rw [find?_cons, names_cons, List.mem_cons, not_or, ← ih]
    by_cases h : Named.name item = name
    · simp [h]
    · simp [h, Ne.symm h]

theorem name_of_find? {name : Name} {items : List α} {item : α} (h : find? name items = some item) :
    Named.name item = name := by
  rw [find?_eq] at h
  simpa using List.find?_some h

theorem mem_of_find? {name : Name} {items : List α} {item : α} (h : find? name items = some item) :
    item ∈ items := by
  rw [find?_eq] at h
  exact List.mem_of_find?_eq_some h

/-- Where names are apart, an item is found under its name. -/
theorem find?_eq_some_iff {name : Name} {items : List α} {item : α} (h : (names items).Nodup) :
    find? name items = some item ↔ item ∈ items ∧ Named.name item = name := by
  constructor
  · intro hfind
    exact ⟨mem_of_find? hfind, name_of_find? hfind⟩
  · rintro ⟨hitem, rfl⟩
    induction items with
    | nil => cases hitem
    | cons other rest ih =>
      rw [names_cons, List.nodup_cons] at h
      rw [find?_cons]
      rcases List.mem_cons.1 hitem with rfl | hitem
      · rw [if_pos rfl]
      · have hne : Named.name other ≠ Named.name item := fun heq => h.1 (heq ▸ List.mem_map_of_mem hitem)
        rw [if_neg hne, ih h.2 hitem]

/-- Where names are apart, what is found does not depend on the order. -/
theorem find?_eq_of_perm {items others : List α} (h : items.Perm others) (hnodup : (names items).Nodup)
    (name : Name) : find? name others = find? name items := by
  ext item
  rw [find?_eq_some_iff hnodup, find?_eq_some_iff ((h.map _).nodup_iff.1 hnodup), h.mem_iff]

/-- Adding brings in nothing else. -/
theorem eq_or_mem_of_mem_put {x item : α} {items : List α} (h : x ∈ put item items) :
    x = item ∨ x ∈ items := by
  induction items with
  | nil => simpa [put] using h
  | cons other rest ih =>
    rw [put] at h
    split at h
    · rcases List.mem_cons.1 h with rfl | h
      · exact .inl rfl
      · exact .inr (List.mem_cons_of_mem _ h)
    · rcases List.mem_cons.1 h with rfl | h
      · exact .inr List.mem_cons_self
      · exact (ih h).imp_right (List.mem_cons_of_mem _)

/-- Adding an item whose image under `f` is new keeps images apart. -/
theorem nodup_map_put {β : Type} {f : α → β} {item : α} {items : List α}
    (h : (items.map f).Nodup) (hnew : f item ∉ items.map f) : ((put item items).map f).Nodup := by
  induction items with
  | nil => simp [put]
  | cons other rest ih =>
    rw [List.map_cons, List.mem_cons, not_or] at hnew
    rw [List.map_cons, List.nodup_cons] at h
    rw [put]
    split
    · exact List.nodup_cons.2 ⟨hnew.2, h.2⟩
    · refine List.nodup_cons.2 ⟨fun hmem => ?_, ih h.2 hnew.2⟩
      obtain ⟨x, hx, hfx⟩ := List.mem_map.1 hmem
      rcases eq_or_mem_of_mem_put hx with rfl | hx
      · exact hnew.1 hfx
      · exact h.1 (hfx ▸ List.mem_map_of_mem hx)

/-- What was added is found under its name. -/
@[simp]
theorem find?_put_self (item : α) (items : List α) :
    find? (Named.name item) (put item items) = some item := by
  induction items with
  | nil => simp [put, find?_cons]
  | cons other rest ih => rw [put]; split <;> simp_all [find?_cons]

/-- Other names find what they found before. -/
theorem find?_put_of_ne {name : Name} {item : α} (h : Named.name item ≠ name) (items : List α) :
    find? name (put item items) = find? name items := by
  induction items with
  | nil => simp [put, find?_cons, h]
  | cons other rest ih =>
    rw [put]
    split
    · next he => simp [find?_cons, he, h]
    · simp [find?_cons, ih]

/-- The names stay as they are, or the new one is added last. -/
theorem names_put (item : α) (items : List α) :
    names (put item items) =
      if Named.name item ∈ names items then names items else names items ++ [Named.name item] := by
  induction items with
  | nil => simp [put]
  | cons other rest ih =>
    rw [put]
    split
    · next he => simp [he]
    · next he =>
      have hn : Named.name item ≠ Named.name other := fun e => he e.symm
      simp only [names_cons, List.mem_cons, hn, false_or, ih]
      split <;> rfl

/-- Adding keeps names apart. -/
theorem nodup_names_put {item : α} {items : List α} (h : (names items).Nodup) :
    (names (put item items)).Nodup := by
  rw [names_put]
  split
  · exact h
  · next hn => exact List.nodup_append.2 ⟨h, by simp, fun a ha b hb => by
      simp at hb
      subst hb
      exact fun e => hn (e ▸ ha)⟩

/-! ### Undoing -/

/-- An item of a new name goes last. -/
theorem put_of_not_mem {item : α} {items : List α} (h : Named.name item ∉ names items) :
    put item items = items ++ [item] := by
  induction items with
  | nil => rfl
  | cons other rest ih =>
    rw [names_cons, List.mem_cons, not_or] at h
    rw [put, if_neg (Ne.symm h.1), ih h.2, List.cons_append]

/-- An item that was replaced gets its place back. -/
theorem put_put_of_find? {item old : α} {items : List α}
    (h : find? (Named.name item) items = some old) : put old (put item items) = items := by
  have hname := name_of_find? h
  induction items with
  | nil => cases h
  | cons other rest ih =>
    rw [find?_cons] at h
    by_cases hother : Named.name other = Named.name item
    · rw [if_pos hother, Option.some.injEq] at h
      subst h
      rw [put, if_pos hother, put, if_pos hother.symm]
    · rw [if_neg hother] at h
      rw [put, if_neg hother, put, if_neg (hname ▸ hother), ih h]

/-- Of two items of one name that are added, the second one stays. -/
theorem put_put {item other : α} (h : Named.name other = Named.name item) (items : List α) :
    put item (put other items) = put item items := by
  induction items with
  | nil => simp only [put, if_pos h]
  | cons first rest ih =>
    by_cases hfirst : Named.name first = Named.name item
    · rw [put, if_pos (hfirst.trans h.symm), put, if_pos h, put, if_pos hfirst]
    · rw [put, if_neg (h ▸ hfirst), put, if_neg hfirst, ih, put, if_neg hfirst]

/-- An item that replaced nothing can be taken away again. -/
theorem without_put {item : α} {items : List α} (h : find? (Named.name item) items = none) :
    without (Named.name item) (put item items) = items := by
  rw [find?_eq_none_iff] at h
  have hall : ∀ other ∈ items, ¬ Named.name other = Named.name item := by
    intro other hother heq
    exact h (heq ▸ List.mem_map_of_mem hother)
  rw [put_of_not_mem h, without, List.eraseP_append_right _ (by simpa using hall)]
  simp

/-! ### Places -/

/-- An item takes the place of the first one of its name, or goes last if there is none. -/
theorem put_cases (item : α) (items : List α) :
    (∃ before old after, items = before ++ old :: after ∧ Named.name old = Named.name item ∧
      Named.name item ∉ names before ∧ put item items = before ++ item :: after) ∨
    (Named.name item ∉ names items ∧ put item items = items ++ [item]) := by
  by_cases hmem : Named.name item ∈ names items
  · left
    induction items with
    | nil => cases hmem
    | cons other rest ih =>
      by_cases hother : Named.name other = Named.name item
      · exact ⟨[], other, rest, rfl, hother, List.not_mem_nil, by rw [put, if_pos hother]; rfl⟩
      · have hrest : Named.name item ∈ names rest := by
          rw [names_cons, List.mem_cons] at hmem
          exact hmem.resolve_left (Ne.symm hother)
        obtain ⟨before, old, after, rfl, hold, hbefore, hput⟩ := ih hrest
        refine ⟨other :: before, old, after, rfl, hold, ?_, ?_⟩
        · rw [names_cons, List.mem_cons, not_or]
          exact ⟨Ne.symm hother, hbefore⟩
        · rw [put, if_neg hother, hput, List.cons_append]
  · exact .inr ⟨hmem, put_of_not_mem hmem⟩

/-- What does not stay has given its place away. -/
theorem find?_of_not_mem_put {x item : α} {items : List α} (hmem : x ∈ items)
    (hnot : x ∉ put item items) : find? (Named.name item) items = some x := by
  induction items with
  | nil => cases hmem
  | cons other rest ih =>
    rw [put] at hnot
    rw [find?_cons]
    split at hnot
    · next hother =>
      rw [if_pos hother]
      rcases List.mem_cons.1 hmem with rfl | hmem
      · rfl
      · exact absurd (List.mem_cons_of_mem _ hmem) hnot
    · next hother =>
      rw [if_neg hother]
      rw [List.mem_cons, not_or] at hnot
      exact ih ((List.mem_cons.1 hmem).resolve_left hnot.1) hnot.2

theorem mem_put_self (item : α) (items : List α) : item ∈ put item items :=
  mem_of_find? (find?_put_self item items)

/-- What is there already is in its place. -/
theorem put_of_find? {item : α} {items : List α} (h : find? (Named.name item) items = some item) :
    put item items = items := by
  induction items with
  | nil => cases h
  | cons other rest ih =>
    rw [find?_cons] at h
    rw [put]
    split at h
    · next hother => rw [if_pos hother, Option.some.inj h]
    · next hother => rw [if_neg hother, ih h]

/-! ### Items for items -/

section Map

variable {β : Type} [Named β] {f : α → β}

/-- Adding goes together with replacing each item by another one of its name. -/
theorem map_put (hf : ∀ item, Named.name (f item) = Named.name item) (item : α) (items : List α) :
    (put item items).map f = put (f item) (items.map f) := by
  induction items with
  | nil => rfl
  | cons other rest ih =>
    rw [put, List.map_cons, put, hf, hf]
    split
    · rfl
    · rw [List.map_cons, ih]

/-- So does looking up. -/
theorem find?_map (hf : ∀ item, Named.name (f item) = Named.name item) (name : Name) (items : List α) :
    find? name (items.map f) = (find? name items).map f := by
  induction items with
  | nil => rfl
  | cons other rest ih =>
    rw [List.map_cons, find?_cons, find?_cons, hf, ih]
    split <;> rfl

end Map

end Roster

end TermAtlas
