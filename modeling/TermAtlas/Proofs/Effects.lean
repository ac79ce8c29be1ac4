import TermAtlas.Declaration.Basic

/-!
# What edits do

What is there after an edit is said here without the functions that carry it out, in terms of what is found:
under the key or name that the edit is about, under all the others, and in which order. This says all there is
to say. Exactly one declaration is there after an edit, and it is the one that `apply` gives.

## What is proved

* `OrderedMap.written_iff`, `OrderedMap.removed_iff`, `Roster.entered_iff` — giving a key a value, taking a key
  away, and adding an item do what they should, and nothing else would.
* `Declaration.makes_iff`, `Declaration.makesAll_iff` — so do the edits of a declaration, one after the other.
-/

namespace TermAtlas

namespace OrderedMap

variable {α β : Type} [DecidableEq α] {m m' : OrderedMap α β} {a : α} {b : β}

/-- `m.Written a b m'`: the map `m'` is `m` but for the value `b` that `a` has there. -/
structure Written (m : OrderedMap α β) (a : α) (b : β) (m' : OrderedMap α β) : Prop where
  /-- The key has the value. -/
  self : m'.get? a = some b
  /-- The other keys have the values that they had. -/
  others : ∀ x, x ≠ a → m'.get? x = m.get? x
  /-- The keys are in their order, and a new one is last. -/
  order : (a ∈ m.keys ∧ m'.keys.toList = m.keys.toList) ∨
    (a ∉ m.keys ∧ m'.keys.toList = m.keys.toList ++ [a])

/-- `m.Removed a m'`: the map `m'` is `m` but for the key `a`, which it does not have. -/
structure Removed (m : OrderedMap α β) (a : α) (m' : OrderedMap α β) : Prop where
  /-- The key is gone. -/
  self : m'.get? a = none
  /-- The other keys have the values that they had. -/
  others : ∀ x, x ≠ a → m'.get? x = m.get? x
  /-- The other keys are in their order. -/
  order : m'.keys.toList = m.keys.toList.filter (· ≠ a)

theorem written_insert (m : OrderedMap α β) (a : α) (b : β) : m.Written a b (m.insert a b) := by
  refine ⟨by rw [get?_insert, if_pos rfl], fun x hx => by rw [get?_insert, if_neg hx], ?_⟩
  rw [keys_insert, OrderedSet.toList_insert]
  by_cases h : a ∈ m.keys
  · exact .inl ⟨h, if_pos h⟩
  · exact .inr ⟨h, if_neg h⟩

/-- Giving a key a value does this, and nothing else does. -/
theorem written_iff : m.Written a b m' ↔ m' = m.insert a b := by
  constructor
  · intro h
    have hinsert := m.written_insert a b
    refine ext_get? (OrderedSet.ext ?_) fun x => ?_
    · rcases h.order with ⟨hmem, horder⟩ | ⟨hnew, horder⟩
      · rcases hinsert.order with ⟨-, horder'⟩ | ⟨hnew, -⟩
        · rw [horder, horder']
        · exact absurd hmem hnew
      · rcases hinsert.order with ⟨hmem, -⟩ | ⟨-, horder'⟩
        · exact absurd hmem hnew
        · rw [horder, horder']
    · by_cases hx : x = a
      · rw [hx, h.self, hinsert.self]
      · rw [h.others x hx, hinsert.others x hx]
  · rintro rfl
    exact m.written_insert a b

theorem removed_erase (m : OrderedMap α β) (a : α) : m.Removed a (m.erase a) := by
  refine ⟨by rw [get?_erase, if_pos rfl], fun x hx => by rw [get?_erase, if_neg hx], ?_⟩
  rw [keys_erase, OrderedSet.toList_filter]

/-- Taking a key away does this, and nothing else does. -/
theorem removed_iff : m.Removed a m' ↔ m' = m.erase a := by
  constructor
  · intro h
    have herase := m.removed_erase a
    refine ext_get? (OrderedSet.ext (h.order.trans herase.order.symm)) fun x => ?_
    by_cases hx : x = a
    · rw [hx, h.self, herase.self]
    · rw [h.others x hx, herase.others x hx]
  · rintro rfl
    exact m.removed_erase a

end OrderedMap

namespace Roster

variable {α : Type} [Named α] {item : α} {items items' : List α}

/-- `Entered item items items'`: the items `items'` are `items` but for `item`, which is among them in the place
of the one that had its name, or else last. -/
structure Entered (item : α) (items items' : List α) : Prop where
  /-- The item is found under its name. -/
  self : find? (Named.name item) items' = some item
  /-- The other names find what they found. -/
  others : ∀ name, name ≠ Named.name item → find? name items' = find? name items
  /-- Everything is in its place. -/
  place : (∃ before old after, items = before ++ old :: after ∧ Named.name old = Named.name item ∧
      Named.name item ∉ names before ∧ items' = before ++ item :: after) ∨
    (Named.name item ∉ names items ∧ items' = items ++ [item])

theorem entered_put (item : α) (items : List α) : Entered item items (put item items) :=
  ⟨find?_put_self item items, fun _ hname => find?_put_of_ne (Ne.symm hname) items, put_cases item items⟩

/-- The first one of its name is replaced. -/
theorem put_append_cons {old : α} {before after : List α} (hold : Named.name old = Named.name item)
    (hbefore : Named.name item ∉ names before) :
    put item (before ++ old :: after) = before ++ item :: after := by
  induction before with
  | nil => rw [List.nil_append, put, if_pos hold, List.nil_append]
  | cons other before ih =>
    rw [names_cons, List.mem_cons, not_or] at hbefore
    rw [List.cons_append, put, if_neg (Ne.symm hbefore.1), ih hbefore.2, List.cons_append]

/-- Adding an item does this, and nothing else does. -/
theorem entered_iff : Entered item items items' ↔ items' = put item items := by
  constructor
  · intro h
    rcases h.place with ⟨before, old, after, rfl, hold, hbefore, rfl⟩ | ⟨hnew, rfl⟩
    · exact (put_append_cons hold hbefore).symm
    · exact (put_of_not_mem hnew).symm
  · rintro rfl
    exact entered_put item items

end Roster

namespace Declaration

variable {d d' : Declaration} {edit : Edit} {edits : List Edit}

/-- `d.Makes edit d'`: what `d` becomes by an edit is `d'`. It stays who it is. -/
inductive Makes (d : Declaration) : Edit → Declaration → Prop where
  /-- The key has the value; the children are the same. -/
  | set {key : Setting.Key} {value : Setting.Value} {d' : Declaration} :
      d'.id = d.id → d'.name = d.name → d.settings.Written key value d'.settings → d'.children = d.children →
      Makes d (.set key value) d'
  /-- The key is gone; the children are the same. -/
  | unset {key : Setting.Key} {d' : Declaration} :
      d'.id = d.id → d'.name = d.name → d.settings.Removed key d'.settings → d'.children = d.children →
      Makes d (.unset key) d'
  /-- The child is there; the settings are the same. -/
  | adopt {child d' : Declaration} :
      d'.id = d.id → d'.name = d.name → d'.settings = d.settings →
      Roster.Entered child d.children d'.children → Makes d (.adopt child) d'

/-- What a declaration becomes by some edits, one after the other. -/
inductive MakesAll : Declaration → List Edit → Declaration → Prop where
  /-- Without edits it stays what it is. -/
  | nil {d : Declaration} : MakesAll d [] d
  /-- The first edit, and then the others. -/
  | cons {d next d' : Declaration} {edit : Edit} {edits : List Edit} :
      Makes d edit next → MakesAll next edits d' → MakesAll d (edit :: edits) d'

/-- An edit makes a declaration what `apply` gives, and nothing else. -/
theorem makes_iff : d.Makes edit d' ↔ d' = d.apply edit := by
  constructor
  · intro h
    obtain ⟨id, name, settings, children⟩ := d'
    cases h with
    | set hid hname hsettings hchildren =>
      cases hid
      cases hname
      cases hchildren
      cases OrderedMap.written_iff.1 hsettings
      rfl
    | unset hid hname hsettings hchildren =>
      cases hid
      cases hname
      cases hchildren
      cases OrderedMap.removed_iff.1 hsettings
      rfl
    | adopt hid hname hsettings hchildren =>
      cases hid
      cases hname
      cases hsettings
      cases Roster.entered_iff.1 hchildren
      rfl
  · rintro rfl
    cases edit with
    | set key value => exact .set rfl rfl (OrderedMap.written_insert _ _ _) rfl
    | unset key => exact .unset rfl rfl (OrderedMap.removed_erase _ _) rfl
    | adopt child => exact .adopt rfl rfl rfl (Roster.entered_put _ _)

/-- Some edits make a declaration what `applyAll` gives, and nothing else. -/
theorem makesAll_iff : d.MakesAll edits d' ↔ d' = d.applyAll edits := by
  constructor
  · intro h
    induction h with
    | nil => rfl
    | cons hfirst _ ih =>
      obtain rfl := makes_iff.1 hfirst
      exact ih
  · rintro rfl
    induction edits generalizing d with
    | nil => exact .nil
    | cons edit edits ih => exact .cons (makes_iff.2 rfl) ih

end Declaration

end TermAtlas
