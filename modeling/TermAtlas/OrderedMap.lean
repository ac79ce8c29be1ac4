import TermAtlas.OrderedSet

/-!
# Ordered maps

A finite map that remembers the order in which its keys were first added: a list of entries under
distinct keys. Writing to a key that is there keeps its place; a new key goes last. Two maps are equal
when they have the same keys in the same order and the same values.

A map can also be given by an ordered set of keys and a value for the key at each place
(`ofFamily`); `keys` and `valueAt` read these two off a map.

## What is proved

* `get?_eq_some_iff` — looking up finds exactly the entries.
* `ext_get?` — keys in order and look-ups determine a map.
* `get?_insert`, `get?_erase`, `get?_restrict`, `get?_combine` — what each operation does to look-ups.
* `keys_insert`, `keys_erase`, `keys_restrict`, `keys_combine` — what it does to the order.
* `ofFamily_valueAt` — a map is given by its keys and their values.
-/

namespace TermAtlas

/-- A finite map with an order on its keys. -/
@[ext]
structure OrderedMap (α β : Type) where
  /-- Each key with its value, in order. -/
  entries : List (α × β)
  /-- No key is listed twice. -/
  nodup : (entries.map Prod.fst).Nodup
  deriving DecidableEq

namespace OrderedMap

variable {α β : Type}

/-- The map without keys. -/
def empty : OrderedMap α β := ⟨[], List.nodup_nil⟩

instance : EmptyCollection (OrderedMap α β) := ⟨empty⟩

instance : Inhabited (OrderedMap α β) := ⟨∅⟩

/-- The keys, in order. -/
def keys (m : OrderedMap α β) : OrderedSet α := ⟨m.entries.map Prod.fst, m.nodup⟩

/-- The number of keys. -/
def size (m : OrderedMap α β) : Nat := m.entries.length

/-- Whether there are no keys. -/
def isEmpty (m : OrderedMap α β) : Bool := m.entries.isEmpty

/-- The entries whose keys satisfy `p`, in the same order. -/
def restrict (p : α → Bool) (m : OrderedMap α β) : OrderedMap α β :=
  ⟨m.entries.filter fun e => p e.1, m.nodup.sublist (List.filter_sublist.map Prod.fst)⟩

/-- The values, in order. -/
def values (m : OrderedMap α β) : Array β := (m.entries.map Prod.snd).toArray

/-- There is one value for each key. -/
theorem size_values (m : OrderedMap α β) : m.values.size = m.keys.size := by
  simp [values, OrderedSet.size, keys]

/-- A family has one value for each key. -/
theorem length_ofFn (keys : OrderedSet α) (valueAt : Fin keys.size → β) :
    (List.ofFn valueAt).length = keys.toList.length := List.length_ofFn

/-- The map with these keys and a value for the key at each place. -/
def ofFamily (keys : OrderedSet α) (valueAt : Fin keys.size → β) : OrderedMap α β :=
  ⟨keys.toList.zip (List.ofFn valueAt), by
    rw [List.map_fst_zip (Nat.le_of_eq (length_ofFn keys valueAt).symm)]
    exact keys.nodup⟩

theorem toList_keys (m : OrderedMap α β) : m.keys.toList = m.entries.map Prod.fst := rfl

theorem mem_keys {m : OrderedMap α β} {a : α} : a ∈ m.keys ↔ ∃ b, (a, b) ∈ m.entries := by
  rw [← OrderedSet.mem_toList, toList_keys]
  simp

variable [DecidableEq α]

/-- Whether `a` is a key. -/
def contains (m : OrderedMap α β) (a : α) : Bool := decide (a ∈ m.keys)

/-- The value of `a`, if it is a key. -/
def get? (m : OrderedMap α β) (a : α) : Option β :=
  (m.entries.find? fun e => e.1 = a).map Prod.snd

/-! ### Look-ups -/

/-- Looking up finds exactly the entries. -/
theorem get?_eq_some_iff {m : OrderedMap α β} {a : α} {b : β} :
    m.get? a = some b ↔ (a, b) ∈ m.entries := by
  obtain ⟨entries, nodup⟩ := m
  simp only [get?]
  induction entries with
  | nil => simp
  | cons e rest ih =>
    rw [List.map_cons, List.nodup_cons] at nodup
    obtain ⟨hnew, nodup⟩ := nodup
    by_cases h : e.1 = a
    · have hrest : (a, b) ∉ rest := fun hmem => hnew (List.mem_map.2 ⟨_, hmem, h.symm⟩)
      subst h
      simp only [List.find?_cons, decide_true, Option.map_some, Option.some.injEq,
        List.mem_cons, hrest, or_false]
      exact ⟨fun hb => by rw [← hb], fun he => by rw [← he]⟩
    · have he : (a, b) ≠ e := fun he => h (by rw [← he])
      simpa [List.find?_cons, h, he] using ih nodup

@[simp]
theorem get?_eq_none_iff {m : OrderedMap α β} {a : α} : m.get? a = none ↔ a ∉ m.keys := by
  rw [Option.eq_none_iff_forall_ne_some, mem_keys]
  simp [get?_eq_some_iff]

theorem isSome_get?_iff {m : OrderedMap α β} {a : α} : (m.get? a).isSome ↔ a ∈ m.keys := by
  rw [Option.isSome_iff_ne_none, ne_eq, get?_eq_none_iff, Decidable.not_not]

theorem get?_of_not_mem {m : OrderedMap α β} {a : α} (h : a ∉ m.keys) : m.get? a = none :=
  get?_eq_none_iff.2 h

@[simp]
theorem get?_empty (a : α) : (∅ : OrderedMap α β).get? a = none := rfl

/-- The keys in order, each with what is found under it. -/
theorem map_get?_keys (m : OrderedMap α β) :
    m.keys.toList.map (fun a => (a, m.get? a)) = m.entries.map fun e => (e.1, some e.2) := by
  rw [toList_keys, List.map_map, List.map_inj_left]
  intro e he
  simp [get?_eq_some_iff.2 (show (e.1, e.2) ∈ m.entries from he)]

/-- Keys in order and look-ups determine a map. -/
theorem ext_get? {m n : OrderedMap α β} (hkeys : m.keys = n.keys)
    (hget : ∀ a, m.get? a = n.get? a) : m = n := by
  have h : m.entries.map (fun e => (e.1, some e.2)) = n.entries.map fun e => (e.1, some e.2) := by
    rw [← map_get?_keys, ← map_get?_keys, hkeys]
    simp [hget]
  exact OrderedMap.ext ((List.map_inj_right fun e f he => by simpa [Prod.ext_iff] using he).1 h)

/-! ### Writing -/

/-- The entries with the value `b` under `a`, in place if `a` is a key, else last. -/
def write (a : α) (b : β) : List (α × β) → List (α × β)
  | [] => [(a, b)]
  | e :: rest => if e.1 = a then (a, b) :: rest else e :: write a b rest

theorem map_fst_write (a : α) (b : β) (entries : List (α × β)) :
    (write a b entries).map Prod.fst =
      if a ∈ entries.map Prod.fst then entries.map Prod.fst else entries.map Prod.fst ++ [a] := by
  induction entries with
  | nil => simp [write]
  | cons e rest ih =>
    rw [write]
    split
    · next h => simp [h]
    · next h =>
      have hne : a ≠ e.1 := fun he => h he.symm
      simp only [List.map_cons, List.mem_cons, hne, false_or, ih]
      split <;> rfl

theorem find?_write (a : α) (b : β) (entries : List (α × β)) (x : α) :
    (write a b entries).find? (fun e => e.1 = x) =
      if x = a then some (a, b) else entries.find? fun e => e.1 = x := by
  induction entries with
  | nil => by_cases h : x = a <;> simp [write, h, eq_comm]
  | cons e rest ih =>
    rw [write]
    by_cases h : x = a
    · subst h
      split <;> simp_all
    · have hne : a ≠ x := fun he => h he.symm
      split
      · next he => simp [he, hne]
      · simp only [List.find?_cons, ih, h, if_false]

theorem filter_write {p : α → Bool} {a : α} (hp : p a = false) (b : β) (entries : List (α × β)) :
    (write a b entries).filter (fun e => p e.1) = entries.filter fun e => p e.1 := by
  induction entries with
  | nil => simp [write, hp]
  | cons e rest ih =>
    rw [write]
    split
    · next h => simp [h, hp]
    · rw [List.filter_cons, List.filter_cons, ih]

/-- Gives `a` the value `b`, in place if `a` is a key, else last. -/
def insert (m : OrderedMap α β) (a : α) (b : β) : OrderedMap α β :=
  ⟨write a b m.entries, by
    rw [map_fst_write]
    exact OrderedSet.toList_insert m.keys a ▸ (m.keys.insert a).nodup⟩

/-- The map without the key `a`; the others keep their order. -/
def erase (m : OrderedMap α β) (a : α) : OrderedMap α β := m.restrict (· ≠ a)

/-- The map of a list of entries: keys stand where they first occur, with the last value given. -/
def ofList (entries : List (α × β)) : OrderedMap α β :=
  entries.foldl (fun m e => m.insert e.1 e.2) ∅

/-- The keys of `lower`, then those that only `upper` has. A key of one side keeps its value, a key of
both gets `both` of the value in `upper` and the value in `lower`. -/
def combine (both : β → β → β) (upper lower : OrderedMap α β) : OrderedMap α β :=
  ⟨lower.entries.map (fun e => (e.1, ((upper.get? e.1).map (both · e.2)).getD e.2)) ++
      upper.entries.filter (fun e => e.1 ∉ lower.keys), by
    have := (lower.keys ∪ upper.keys).nodup
    rw [OrderedSet.toList_union, toList_keys, toList_keys, List.filter_map] at this
    simpa [Function.comp_def] using this⟩

/-- The entries of `upper` written over those of `lower`. -/
def overlay (upper lower : OrderedMap α β) : OrderedMap α β :=
  combine (fun value _ => value) upper lower

/-- Whether both maps have the same keys, in whatever order, and related values. -/
def sameBy (same : β → β → Bool) (m n : OrderedMap α β) : Bool :=
  m.size == n.size && m.entries.all fun e =>
    match n.get? e.1 with
    | some b => same e.2 b
    | none => false

theorem get?_insert (m : OrderedMap α β) (a b : α) (v : β) :
    (m.insert a v).get? b = if b = a then some v else m.get? b := by
  rw [get?, insert, find?_write]
  split <;> rfl

omit [DecidableEq α] in
theorem mem_entries_restrict {m : OrderedMap α β} {p : α → Bool} {a : α} {b : β} :
    (a, b) ∈ (m.restrict p).entries ↔ (a, b) ∈ m.entries ∧ p a := by
  simp [restrict]

theorem get?_restrict (m : OrderedMap α β) (p : α → Bool) (a : α) :
    (m.restrict p).get? a = if p a then m.get? a else none := by
  ext b
  rw [get?_eq_some_iff, mem_entries_restrict]
  by_cases hp : p a <;> simp [hp, get?_eq_some_iff]

theorem get?_erase (m : OrderedMap α β) (a b : α) :
    (m.erase a).get? b = if b = a then none else m.get? b := by
  by_cases h : b = a <;> simp [erase, get?_restrict, h]

/-- Giving a key a value does not show where the key is left out. -/
theorem restrict_insert {p : α → Bool} {a : α} (hp : p a = false) (m : OrderedMap α β) (b : β) :
    (m.insert a b).restrict p = m.restrict p :=
  OrderedMap.ext (filter_write hp b m.entries)

/-- Taking a key away does not show where the key is left out. -/
theorem restrict_erase {p : α → Bool} {a : α} (hp : p a = false) (m : OrderedMap α β) :
    (m.erase a).restrict p = m.restrict p := by
  refine OrderedMap.ext (List.filter_filter.trans (List.filter_congr fun e _ => ?_))
  by_cases h : e.1 = a <;> simp [h, hp]

/-- Taking away what is not there changes nothing. -/
theorem erase_of_get?_eq_none {m : OrderedMap α β} {a : α} (h : m.get? a = none) : m.erase a = m := by
  refine OrderedMap.ext (List.filter_eq_self.2 fun e he => decide_eq_true ?_)
  rintro rfl
  have hfound : m.get? e.1 = some e.2 := get?_eq_some_iff.2 he
  rw [h] at hfound
  cases hfound

theorem get?_combine (both : β → β → β) (upper lower : OrderedMap α β) (a : α) :
    (combine both upper lower).get? a =
      match upper.get? a, lower.get? a with
      | some v, some w => some (both v w)
      | some v, none => some v
      | none, w => w := by
  ext b
  rw [get?_eq_some_iff]
  have hmem : (a, b) ∈ (combine both upper lower).entries ↔
      (∃ w, lower.get? a = some w ∧ ((upper.get? a).map (both · w)).getD w = b) ∨
        (upper.get? a = some b ∧ lower.get? a = none) := by
    simp only [combine, List.mem_append, List.mem_map, List.mem_filter, get?_eq_some_iff,
      get?_eq_none_iff, decide_eq_true_eq]
    refine or_congr_left ⟨?_, ?_⟩
    · rintro ⟨⟨c, w⟩, hw, he⟩
      obtain ⟨rfl, rfl⟩ := Prod.ext_iff.1 he
      exact ⟨w, hw, rfl⟩
    · rintro ⟨w, hw, rfl⟩
      exact ⟨(a, w), hw, rfl⟩
  rw [hmem]
  cases upper.get? a <;> cases lower.get? a <;> simp

theorem get?_overlay (upper lower : OrderedMap α β) (a : α) :
    (upper.overlay lower).get? a = (upper.get? a).or (lower.get? a) := by
  rw [overlay, get?_combine]
  cases upper.get? a <;> cases lower.get? a <;> rfl

/-! ### Order -/

@[simp]
theorem keys_insert (m : OrderedMap α β) (a : α) (b : β) :
    (m.insert a b).keys = m.keys.insert a := by
  apply OrderedSet.ext
  rw [OrderedSet.toList_insert, toList_keys, toList_keys, insert, map_fst_write]
  rfl

omit [DecidableEq α] in
@[simp]
theorem keys_restrict (m : OrderedMap α β) (p : α → Bool) :
    (m.restrict p).keys = m.keys.filter p := by
  apply OrderedSet.ext
  rw [OrderedSet.toList_filter, toList_keys, toList_keys, List.filter_map]
  rfl

@[simp]
theorem keys_erase (m : OrderedMap α β) (a : α) : (m.erase a).keys = m.keys.filter (· ≠ a) :=
  keys_restrict m _

@[simp]
theorem keys_combine (both : β → β → β) (upper lower : OrderedMap α β) :
    (combine both upper lower).keys = lower.keys ∪ upper.keys := by
  apply OrderedSet.ext
  rw [OrderedSet.toList_union, toList_keys, toList_keys, toList_keys, List.filter_map, combine,
    List.map_append, List.map_map]
  rfl

omit [DecidableEq α] in
@[simp]
theorem map_fst_entries (m : OrderedMap α β) : m.entries.map Prod.fst = m.keys.toList := rfl

/-! ### Families -/

omit [DecidableEq α] in
@[simp]
theorem keys_ofFamily (keys : OrderedSet α) (valueAt : Fin keys.size → β) :
    (ofFamily keys valueAt).keys = keys := by
  apply OrderedSet.ext
  rw [toList_keys, ofFamily, List.map_fst_zip (Nat.le_of_eq (length_ofFn keys valueAt).symm)]

omit [DecidableEq α] in
theorem values_ofFamily (keys : OrderedSet α) (valueAt : Fin keys.size → β) :
    (ofFamily keys valueAt).values = Array.ofFn valueAt := by
  rw [values, ofFamily, List.map_snd_zip (Nat.le_of_eq (length_ofFn keys valueAt)),
    List.toArray_ofFn]

/-- The value of the key at a place. -/
def valueAt (m : OrderedMap α β) (i : Fin m.keys.size) : β :=
  m.values[i.cast m.size_values.symm]

omit [DecidableEq α] in
/-- A map is given by its keys and their values. -/
@[simp]
theorem ofFamily_valueAt (m : OrderedMap α β) : ofFamily m.keys m.valueAt = m := by
  apply OrderedMap.ext
  have h : List.ofFn m.valueAt = m.entries.map Prod.snd := by
    apply List.ext_getElem
    · rw [length_ofFn, toList_keys, List.length_map, List.length_map]
    · intro i _ _
      simp only [List.getElem_ofFn, valueAt, values]
      rfl
  simp only [ofFamily, h, toList_keys]
  rw [List.zip_map']
  simp

end OrderedMap

end TermAtlas
