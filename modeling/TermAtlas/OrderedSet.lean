/-!
# Ordered sets

A finite set that remembers the order in which its members were first added. It is the list of its
members, without repetition; adding a member that is already there changes nothing.
-/

namespace TermAtlas

/-- A finite set with an order on its members. -/
@[ext]
structure OrderedSet (α : Type) where
  /-- The members, in order. -/
  toList : List α
  /-- No member is listed twice. -/
  nodup : toList.Nodup
  deriving DecidableEq

namespace OrderedSet

variable {α : Type}

instance : Membership α (OrderedSet α) := ⟨fun s a => a ∈ s.toList⟩

/-- Membership is membership in the list. -/
@[simp]
theorem mem_toList {s : OrderedSet α} {a : α} : a ∈ s.toList ↔ a ∈ s := Iff.rfl

instance [DecidableEq α] (a : α) (s : OrderedSet α) : Decidable (a ∈ s) :=
  inferInstanceAs (Decidable (a ∈ s.toList))

/-- The set without members. -/
def empty : OrderedSet α := ⟨[], List.nodup_nil⟩

instance : EmptyCollection (OrderedSet α) := ⟨empty⟩

instance : Inhabited (OrderedSet α) := ⟨∅⟩

/-- The number of members. -/
def size (s : OrderedSet α) : Nat := s.toList.length

/-- The members that satisfy `p`, in the same order. -/
def filter (p : α → Bool) (s : OrderedSet α) : OrderedSet α :=
  ⟨s.toList.filter p, s.nodup.filter p⟩

@[simp]
theorem not_mem_empty (a : α) : a ∉ (∅ : OrderedSet α) := List.not_mem_nil

@[simp]
theorem mem_filter {s : OrderedSet α} {p : α → Bool} {a : α} : a ∈ s.filter p ↔ a ∈ s ∧ p a := by
  rw [← mem_toList, filter]
  simp

theorem toList_filter (s : OrderedSet α) (p : α → Bool) :
    (s.filter p).toList = s.toList.filter p := rfl

variable [DecidableEq α]

/-- The place of `a` in the order, if it is a member. -/
def place? (s : OrderedSet α) (a : α) : Option (Fin s.size) := s.toList.finIdxOf? a

/-- Adds a member last, unless it is there already. -/
def insert (s : OrderedSet α) (a : α) : OrderedSet α :=
  if h : a ∈ s then s
  else ⟨s.toList ++ [a], by
    rw [List.nodup_append]
    refine ⟨s.nodup, by simp, ?_⟩
    intro x hx y hy
    simp at hy
    subst hy
    intro e
    exact h (e ▸ hx)⟩

/-- The members of `s` in their order, then those of `t` that are not in `s`. -/
def union (s t : OrderedSet α) : OrderedSet α :=
  ⟨s.toList ++ t.toList.filter (· ∉ s), by
    rw [List.nodup_append]
    refine ⟨s.nodup, t.nodup.filter _, ?_⟩
    intro x hx y hy e
    simp at hy
    exact hy.2 (e ▸ hx)⟩

instance : Union (OrderedSet α) := ⟨union⟩

/-- The members of a list, each where it first occurs. -/
def ofList (items : List α) : OrderedSet α := items.foldl insert ∅

/-- Whether two sets have the same members, in whatever order. -/
def sameMembers (s t : OrderedSet α) : Bool :=
  s.size == t.size && s.toList.all (· ∈ t)

@[simp]
theorem mem_insert {s : OrderedSet α} {a b : α} : b ∈ s.insert a ↔ b ∈ s ∨ b = a := by
  by_cases h : a ∈ s
  · rw [insert, dif_pos h]
    exact ⟨Or.inl, fun hb => hb.elim id fun e => e ▸ h⟩
  · rw [insert, dif_neg h, ← mem_toList]
    simp

@[simp]
theorem mem_union {s t : OrderedSet α} {a : α} : a ∈ s ∪ t ↔ a ∈ s ∨ a ∈ t := by
  show a ∈ (union s t).toList ↔ _
  by_cases h : a ∈ s <;> simp [union, h]

theorem toList_union (s t : OrderedSet α) :
    (s ∪ t).toList = s.toList ++ t.toList.filter (· ∉ s) := rfl

theorem toList_insert (s : OrderedSet α) (a : α) :
    (s.insert a).toList = if a ∈ s then s.toList else s.toList ++ [a] := by
  rw [insert]
  split <;> rfl

end OrderedSet

end TermAtlas
