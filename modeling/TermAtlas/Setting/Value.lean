import TermAtlas.OrderedMap
import TermAtlas.Pointer.Reader

/-!
# Setting values

A value is nothing, a flag, a text, a set of tags, a pointer, or a mapping of texts to values.
Mappings are ordered maps; in the type below such a map is given by its keys and the value at each
place, and `ofMapping` and `asMapping?` go to and fro.

Two notions of equality matter. Equality proper takes account of the order of tags and of the keys
of mappings; `same` does not, at any depth.

## What is proved

* `asMapping?_ofMapping` and `asMapping?_eq_some_iff` — a mapping is its ordered map and no more.
* `beq_iff_eq` — the equality test decides equality.
-/

namespace TermAtlas.Setting

/-- What a setting holds. -/
inductive Value where
  /-- Explicitly no value. -/
  | nil
  /-- Yes or no. -/
  | flag (on : Bool)
  /-- A text. -/
  | text (text : String)
  /-- A set of tags, in order. -/
  | tags (tags : OrderedSet String)
  /-- A pointer to a term. -/
  | pointer (pointer : Pointer)
  /-- A mapping: its keys, in order, and the value of the key at each place. -/
  | mapping (keys : OrderedSet String) (valueAt : Fin keys.size → Value)

instance : Inhabited Value := ⟨.nil⟩

namespace Value

/-- The shapes that values have. -/
inductive Kind where
  | nil | flag | text | tags | pointer | mapping
  deriving DecidableEq, Repr

/-- How diagnostics call a shape. -/
def Kind.describe : Kind → String
  | nil => "nil"
  | flag => "boolean"
  | text => "string"
  | tags => "tag set"
  | pointer => "pointer"
  | mapping => "mapping"

/-- The shape of a value. -/
def kind : Value → Kind
  | nil => .nil
  | flag _ => .flag
  | text _ => .text
  | tags _ => .tags
  | pointer _ => .pointer
  | mapping _ _ => .mapping

/-! ### Mappings -/

/-- The value that holds a mapping. -/
def ofMapping (m : OrderedMap String Value) : Value :=
  let values := m.values
  mapping m.keys fun i => values[i.cast m.size_values.symm]

/-- The mapping, if the value is one. -/
def asMapping? : Value → Option (OrderedMap String Value)
  | mapping keys valueAt => some (OrderedMap.ofFamily keys valueAt)
  | _ => none

theorem ofMapping_eq (m : OrderedMap String Value) : ofMapping m = mapping m.keys m.valueAt := rfl

@[simp]
theorem asMapping?_ofMapping (m : OrderedMap String Value) : (ofMapping m).asMapping? = some m := by
  rw [ofMapping_eq, asMapping?, OrderedMap.ofFamily_valueAt]

/-- Mappings with the same keys and the same value at each place are equal. -/
theorem mapping_congr {ks ls : OrderedSet String} {f : Fin ks.size → Value}
    {g : Fin ls.size → Value} (keys : ks = ls)
    (values : ∀ i (hf : i < ks.size) (hg : i < ls.size), f ⟨i, hf⟩ = g ⟨i, hg⟩) :
    mapping ks f = mapping ls g := by
  subst keys
  congr
  funext i
  exact values i.1 i.2 i.2

/-- A mapping holds the map that its keys and their values give. -/
theorem ofMapping_ofFamily (keys : OrderedSet String) (valueAt : Fin keys.size → Value) :
    ofMapping (OrderedMap.ofFamily keys valueAt) = mapping keys valueAt := by
  refine mapping_congr (OrderedMap.keys_ofFamily keys valueAt) fun i _ _ => ?_
  simp [OrderedMap.values_ofFamily]

theorem asMapping?_eq_some_iff {v : Value} {m : OrderedMap String Value} :
    v.asMapping? = some m ↔ v = ofMapping m := by
  constructor
  · intro h
    cases v <;> simp only [asMapping?, reduceCtorEq, Option.some.injEq] at h
    next keys valueAt => rw [← h, ofMapping_ofFamily]
  · rintro rfl
    exact asMapping?_ofMapping m

theorem asMapping?_isSome_iff {v : Value} : v.asMapping?.isSome ↔ v.kind = .mapping := by
  cases v <;> simp [asMapping?, kind]

/-! ### Reading values -/

/-- The text, if the value is one. -/
def asText? : Value → Option String
  | text s => some s
  | _ => none

/-- The flag, if the value is one. -/
def asFlag? : Value → Option Bool
  | flag b => some b
  | _ => none

/-- A text or a flag as it would stand in an attribute. -/
def toText? : Value → Option String
  | text s => some s
  | flag b => some (if b then "true" else "false")
  | _ => none

/-- A pointer, or the one that a text stands for: what it reads as, or failing that the pointer
whose only segment is the text. -/
def toPointer? : Value → Option Pointer
  | pointer p => some p
  | text s =>
    match Pointer.parse s with
    | .ok p => some p
    | .error _ => some (Pointer.ofName ⟨s⟩)
  | _ => none

/-! ### Equality -/

/-- The test for equality. -/
def beq : Value → Value → Bool
  | nil, nil => true
  | flag b, flag c => b == c
  | text s, text t => s == t
  | tags s, tags t => decide (s = t)
  | pointer p, pointer q => decide (p = q)
  | mapping ks f, mapping ls g =>
    decide (ks.toList = ls.toList) && (List.finRange ks.size).all fun i =>
      if h : i.1 < ls.size then beq (f i) (g ⟨i.1, h⟩) else false
  | _, _ => false

/-- Whether two values agree but for the order of tags and keys. -/
def same : Value → Value → Bool
  | nil, nil => true
  | flag b, flag c => b == c
  | text s, text t => s == t
  | tags s, tags t => s.sameMembers t
  | pointer p, pointer q => decide (p = q)
  | mapping ks f, mapping ls g =>
    ks.size == ls.size && (List.finRange ks.size).all fun i =>
      match ls.place? (ks.toList.get i) with
      | some j => same (f i) (g j)
      | none => false
  | _, _ => false

/-- The equality test decides equality. -/
theorem beq_iff_eq {v w : Value} : beq v w = true ↔ v = w := by
  induction v generalizing w with
  | mapping ks f ih =>
    cases w with
    | mapping ls g =>
      simp only [beq, Bool.and_eq_true, decide_eq_true_eq, List.all_eq_true, List.mem_finRange,
        forall_const]
      constructor
      · rintro ⟨hkeys, hvalues⟩
        refine mapping_congr (OrderedSet.ext hkeys) fun i hf hg => ?_
        have := hvalues ⟨i, hf⟩
        rw [dif_pos hg] at this
        exact (ih ⟨i, hf⟩).1 this
      · intro h
        cases h
        refine ⟨rfl, fun i => ?_⟩
        rw [dif_pos i.2]
        exact (ih i).2 rfl
    | _ => simp [beq]
  | _ => cases w <;> simp [beq]

instance : DecidableEq Value := fun _ _ => decidable_of_iff _ beq_iff_eq

end Value

end TermAtlas.Setting
