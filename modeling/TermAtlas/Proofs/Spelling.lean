import TermAtlas.Proofs.Agreement
import TermAtlas.Proofs.Rendering

/-!
# Pointers as texts

Where a setting is read as a pointer, its text can stand in its place: a pointer whose names are words is read
back from the text that shows it. Neither kind of value is a mapping, so that importing treats both alike,
and what is left of the difference afterwards are the settings that proxies carry along. Texts and pointers may
be mixed in any way, along one chain of references as well.

## What is proved

* `Value.Spells.toPointer?_eq` — the text of a pointer is read as the pointer.
* `Settings.Spelled.congruence` — importing keeps the one the spelling of the other.
* `Registry.Alike.build_of_spelled` — what is built does not depend on the spelling of pointers.
-/

namespace TermAtlas

namespace Setting

/-- The keys whose values are read as pointers. -/
def Key.pointing : List Key := [.reference, .proxy, .variantOf]

/-- The same value; or under a key whose values are read as pointers, the text that shows a pointer in place
of the pointer. The pointer is not empty, and its names are words. -/
inductive Value.Spells (key : Key) : Value → Value → Prop where
  /-- The same value. -/
  | same (value : Value) : Spells key value value
  /-- The text that shows a pointer. -/
  | text {p : Pointer} : key ∈ Key.pointing → p.segments ≠ [] → (∀ name ∈ p.segments, name.IsWord) →
      Spells key (.pointer p) (.text p.render)

variable {key : Key} {value value' : Value}

namespace Value

/-- The text that shows a pointer is read as this pointer. -/
theorem toPointer?_render {p : Pointer} (hne : p.segments ≠ []) (hwords : ∀ name ∈ p.segments, name.IsWord) :
    (text p.render).toPointer? = some p := by
  have hread : Pointer.parse p.render = .ok p :=
    eq_ok_of_mapError (Pointer.ofText_render_eq_ok_iff.2 ⟨hne, hwords⟩)
  unfold toPointer?
  simp only [hread]

theorem Spells.toPointer?_eq (h : Spells key value value') : value'.toPointer? = value.toPointer? := by
  cases h with
  | same => rfl
  | text _ hne hwords => exact toPointer?_render hne hwords

/-- Under all other keys nothing is spelled. -/
theorem Spells.eq_of_not_mem (h : Spells key value value') (hkey : key ∉ Key.pointing) : value' = value := by
  cases h with
  | same => rfl
  | text hmem _ _ => exact absurd hmem hkey

/-- A mapping is spelled as itself only, and so is what is no mapping by something that is none. -/
theorem Spells.asMapping?_eq (h : Spells key value value') : value'.asMapping? = value.asMapping? := by
  cases h <;> rfl

end Value


end Setting

open Setting

namespace Settings

/-- The same keys in the same order, with values that are the same or spell a pointer. -/
structure Spelled (s s' : Settings) : Prop where
  /-- The same keys, in order. -/
  keys : s'.keys = s.keys
  /-- Under each key the same value, or the text of the pointer. -/
  value : ∀ key, Option.Rel (Value.Spells key) (s.get? key) (s'.get? key)

variable {s s' : Settings} {key : Key} {v v' w w' : Value}

/-- Laying one value over another does not depend on how either is spelled. -/
theorem spells_overlayValue (h : Value.Spells key v v') (hw : Value.Spells key w w') :
    Value.Spells key (overlayValue v w) (overlayValue v' w') := by
  rw [overlayValue, overlayValue, h.asMapping?_eq, hw.asMapping?_eq]
  cases v.asMapping? with
  | none => exact h
  | some upper =>
    cases w.asMapping? with
    | none => exact h
    | some lower => exact .same _

theorem Spelled.refl (s : Settings) : s.Spelled s := by
  refine ⟨rfl, fun key => ?_⟩
  cases s.get? key with
  | none => exact .none
  | some value => exact .some (.same value)

theorem Spelled.insert (h : s.Spelled s') (hv : Value.Spells key v v') :
    Spelled (OrderedMap.insert s key v) (OrderedMap.insert s' key v') := by
  refine ⟨by rw [OrderedMap.keys_insert, OrderedMap.keys_insert, h.keys], fun other => ?_⟩
  rw [OrderedMap.get?_insert, OrderedMap.get?_insert]
  split
  · next heq => exact .some (heq ▸ hv)
  · exact h.value other

theorem Spelled.pointer?_eq (h : s.Spelled s') (key : Key) : s'.pointer? key = s.pointer? key := by
  have hvalue := h.value key
  rw [pointer?, pointer?]
  generalize s.get? key = found, s'.get? key = found' at hvalue ⊢
  cases hvalue with
  | none => rfl
  | some hspells => exact hspells.toPointer?_eq

theorem Spelled.get?_eq (h : s.Spelled s') (hkey : key ∉ Key.pointing) : s'.get? key = s.get? key := by
  have hvalue := h.value key
  generalize s.get? key = found, s'.get? key = found' at hvalue ⊢
  cases hvalue with
  | none => rfl
  | some hspells => rw [hspells.eq_of_not_mem hkey]

/-- Importing keeps the one the spelling of the other. -/
theorem Spelled.congruence : Settings.Congruence Spelled where
  reference _ _ h := h.pointer?_eq _
  proxy _ _ h := h.pointer?_eq _
  path _ _ h := by rw [h.get?_eq (by decide)]
  onto s s' below below' h hbelow := by
    refine ⟨?_, fun key => ?_⟩
    · rw [Settings.onto, Settings.onto, OrderedMap.keys_combine, OrderedMap.keys_combine, h.keys, hbelow.keys]
    · have hupper := h.value key
      have hlower := hbelow.value key
      rw [Settings.onto, Settings.onto, OrderedMap.get?_combine, OrderedMap.get?_combine]
      generalize s.get? key = v, s'.get? key = v', below.get? key = w, below'.get? key = w' at hupper hlower ⊢
      cases hupper with
      | none => exact hlower
      | some hv =>
        cases hlower with
        | none => exact .some hv
        | some hw => exact .some (spells_overlayValue hv hw)
  set _ _ _ h := h.insert (.same _)
  unset s s' h := by
    refine ⟨by rw [OrderedMap.keys_erase, OrderedMap.keys_erase, h.keys], fun key => ?_⟩
    rw [OrderedMap.get?_erase, OrderedMap.get?_erase]
    split
    · exact .none
    · exact h.value key

/-- What is carried along under extension keys is the same. -/
theorem Spelled.extensions_eq (h : s.Spelled s') : s'.extensions = s.extensions := by
  refine OrderedMap.ext_get? ?_ fun key => ?_
  · rw [extensions, extensions, OrderedMap.keys_restrict, OrderedMap.keys_restrict, h.keys]
  · rw [extensions, extensions, OrderedMap.get?_restrict, OrderedMap.get?_restrict]
    cases key with
    | extension text => rw [h.get?_eq (by simp [Key.pointing])]
    | _ => rfl

/-- Terms have the same traits. -/
theorem Spelled.traits_eq (h : s.Spelled s') (name : Name) : Traits.ofSettings name s = Traits.ofSettings name s' := by
  have hget : ∀ key ∉ Key.pointing, s'.get? key = s.get? key := fun key hkey => h.get?_eq hkey
  simp only [Traits.ofSettings, isOn, text?, h.pointer?_eq, h.extensions_eq, hget .path (by decide),
    hget .qualifier (by decide), hget .attributes (by decide), hget .required (by decide),
    hget .dataType (by decide), hget .indexAs (by decide), hget .contentPath (by decide), hget .root (by decide)]

end Settings

theorem XPaths.congruence_eq : XPaths.Congruence Eq Eq := by
  rintro above above' traits _ habove rfl
  cases habove with
  | none => rfl
  | some hpaths => rw [hpaths]

/-- It makes no difference whether pointers are given or spelled. If some of the pointers in a registry are
replaced by the texts that show them, at any depth, both registries fail for the same reason, or what is built
has the same roots and nodes but for the settings that proxies carry along, in which the pointers are
spelled. -/
theorem Registry.Alike.build_of_spelled {r r' : Registry} (h : r.Alike Settings.Spelled r') :
    Concur (Terminology.Alike Settings.Spelled Eq Eq) r.build.result r'.build.result :=
  h.build Settings.Spelled.congruence (fun name _ _ hs => hs.traits_eq name) XPaths.congruence_eq

namespace Terminology.Sample

/-- The registry with the reference of persons and one of the proxies spelled. -/
def spelledRegistry : Registry where
  roots := [
    declaration 0 "name" [] [
      declaration 1 "part" [] [],
      declaration 2 "role" [] [declaration 3 "text" [(.path, .text "roleTerm")] []],
      declaration 4 "roleText" [(.proxy, .text "[:role, :text]")] []],
    declaration 5 "person" [
      (.reference, .text "[:name]"),
      (.attributes, .ofMapping (OrderedMap.ofList [("type", .text "personal")]))] [],
    declaration 6 "role" [(.proxy, .pointer (pointer ["name", "roleText"]))] []]
  distinct := registry.distinct

/-- A text that reads as a pointer and shows it spells it. -/
theorem spells_of_ofText {key : Key} (hkey : key ∈ Key.pointing) {p : Pointer} {text : String}
    (hread : Pointer.ofText text = .ok p) (hshown : p.render = text) :
    Value.Spells key (.pointer p) (.text text) := by
  subst hshown
  obtain ⟨hne, hwords⟩ := Pointer.ofText_render_eq_ok_iff.1 hread
  exact .text hkey hne hwords

theorem alike_spelledRegistry : registry.Alike Settings.Spelled spelledRegistry := by
  have hsame : ∀ number name entries, Declaration.Alike Settings.Spelled
      (declaration number name entries []) (declaration number name entries []) :=
    fun _ _ _ => .intro rfl rfl (.refl _) .nil
  have hproxy : Value.Spells .proxy (.pointer (pointer ["role", "text"])) (.text "[:role, :text]") :=
    spells_of_ofText (by decide) (by decide +kernel) (by decide +kernel)
  have hreference : Value.Spells .reference (.pointer (pointer ["name"])) (.text "[:name]") :=
    spells_of_ofText (by decide) (by decide +kernel) (by decide +kernel)
  have htype : Value.Spells .attributes (.ofMapping (OrderedMap.ofList [("type", .text "personal")])) _ :=
    .same _
  have hperson := ((Settings.Spelled.refl ∅).insert hreference).insert htype
  refine .cons (.intro rfl rfl (.refl _) ?_) (.cons (.intro rfl rfl hperson .nil) (.cons (hsame ..) .nil))
  refine .cons (hsame ..) (.cons (.intro rfl rfl (.refl _) (.cons (hsame ..) .nil)) (.cons ?_ .nil))
  exact .intro rfl rfl ((Settings.Spelled.refl ∅).insert hproxy) .nil

/-- Names, persons and roles are built from the spelled registry as well. -/
theorem build_of_spelledRegistry : registry.Alike Settings.Spelled spelledRegistry ∧
    ∃ t', spelledRegistry.build.result = .ok t' ∧ built.Alike Settings.Spelled Eq Eq t' := by
  have hbuild := alike_spelledRegistry.build_of_spelled
  exact ⟨alike_spelledRegistry, hbuild.exists_of_ok result_build⟩

end Terminology.Sample

end TermAtlas
