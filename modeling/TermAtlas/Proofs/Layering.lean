import TermAtlas.Setting.Settings

/-!
# Layers of settings

Laying settings over others is what importing comes down to, once for each declaration on a chain. Both the order
of the keys and the values are observable, since the attributes of a term are written in the order of their
mapping. The result is known key by key (`Layered`), and there is only one result of this kind.

Three layers can be laid over each other from above or from below, and it makes no difference, with one
exception: where a value that is no mapping stands between two mappings. From above it hides the lower mapping;
from below it is gone before the lower mapping is met (`Severed`).

## What is proved

* `OrderedMap.combine_assoc`, `OrderedMap.overlay_assoc` — three maps are combined from above or from below.
* `OrderedMap.combine_eq_addAll`, `OrderedMap.overlay_eq_writeAll` — combining is writing entries one by one.
* `Settings.Layered.unique` — keys and values of both layers determine the result.
* `Settings.onto_assoc` — three layers, unless a mapping is severed from another one.
* `Settings.onto_layers` — what laying settings over others is, and its laws.
-/

namespace TermAtlas

namespace OrderedSet

variable {α : Type} [DecidableEq α]

theorem union_assoc (s t u : OrderedSet α) : s ∪ t ∪ u = s ∪ (t ∪ u) := by
  apply OrderedSet.ext
  simp [toList_union, List.filter_append, List.filter_filter, not_or, Bool.decide_and]

theorem union_self (s : OrderedSet α) : s ∪ s = s := by
  apply OrderedSet.ext
  simp [toList_union]

theorem union_empty (s : OrderedSet α) : s ∪ ∅ = s := by
  apply OrderedSet.ext
  rw [toList_union]
  exact List.append_nil _

theorem empty_union (s : OrderedSet α) : ∅ ∪ s = s := by
  apply OrderedSet.ext
  rw [toList_union]
  exact List.filter_eq_self.2 fun a _ => decide_eq_true (not_mem_empty a)

end OrderedSet

namespace OrderedMap

variable {α β : Type} [DecidableEq α] {both : β → β → β} {upper middle lower : OrderedMap α β}

/-! ### Laws of combining -/

theorem combine_self (h : ∀ v, both v v = v) (m : OrderedMap α β) : combine both m m = m := by
  refine ext_get? ?_ fun a => ?_
  · rw [keys_combine, OrderedSet.union_self]
  · rw [get?_combine]
    cases m.get? a with
    | none => rfl
    | some v => exact congrArg some (h v)

theorem combine_empty (both : β → β → β) (m : OrderedMap α β) : combine both m ∅ = m := by
  refine ext_get? ?_ fun a => ?_
  · rw [keys_combine]
    exact OrderedSet.empty_union _
  · rw [get?_combine, get?_empty]
    cases m.get? a <;> rfl

theorem empty_combine (both : β → β → β) (m : OrderedMap α β) : combine both ∅ m = m := by
  refine ext_get? ?_ fun a => ?_
  · rw [keys_combine]
    exact OrderedSet.union_empty _
  · rw [get?_combine, get?_empty]

/-- Three maps are combined from above or from below, if their values can be under every key that all of them
have. -/
theorem combine_assoc (h : ∀ a x y z, upper.get? a = some x → middle.get? a = some y → lower.get? a = some z →
    both x (both y z) = both (both x y) z) :
    combine both upper (combine both middle lower) = combine both (combine both upper middle) lower := by
  refine ext_get? ?_ fun a => ?_
  · simp only [keys_combine, OrderedSet.union_assoc]
  · simp only [get?_combine]
    cases hx : upper.get? a with
    | none => cases middle.get? a <;> cases lower.get? a <;> rfl
    | some x =>
      cases hy : middle.get? a with
      | none => cases lower.get? a <;> rfl
      | some y =>
        cases hz : lower.get? a with
        | none => rfl
        | some z => exact congrArg some (h a x y z hx hy hz)

theorem overlay_self (m : OrderedMap α β) : m.overlay m = m := combine_self (fun _ => rfl) m

theorem overlay_assoc (upper middle lower : OrderedMap α β) :
    upper.overlay (middle.overlay lower) = (upper.overlay middle).overlay lower :=
  combine_assoc fun _ _ _ _ _ _ _ => rfl

/-! ### Writing one by one -/

/-- The map after entries have been written one after the other. -/
def writeAll (m : OrderedMap α β) (entries : List (α × β)) : OrderedMap α β :=
  entries.foldl (fun m e => m.insert e.1 e.2) m

/-- The map after entries have been written one after the other, but for those whose keys are there. -/
def addAll (m : OrderedMap α β) (entries : List (α × β)) : OrderedMap α β :=
  entries.foldl (fun m e => if e.1 ∈ m.keys then m else m.insert e.1 e.2) m

theorem write_of_not_mem {a : α} {entries : List (α × β)} (h : a ∉ entries.map Prod.fst) (b : β) :
    write a b entries = entries ++ [(a, b)] := by
  induction entries with
  | nil => rfl
  | cons e rest ih =>
    rw [List.map_cons, List.mem_cons, not_or] at h
    rw [write, if_neg (Ne.symm h.1), ih h.2, List.cons_append]

theorem entries_insert_of_not_mem {m : OrderedMap α β} {a : α} (h : a ∉ m.keys) (b : β) :
    (m.insert a b).entries = m.entries ++ [(a, b)] :=
  write_of_not_mem h b

/-- Of entries whose keys are apart those with new keys are added, as they are. -/
theorem entries_addAll {entries : List (α × β)} (h : (entries.map Prod.fst).Nodup) (m : OrderedMap α β) :
    (m.addAll entries).entries = m.entries ++ entries.filter (·.1 ∉ m.keys) := by
  induction entries generalizing m with
  | nil => exact (List.append_nil _).symm
  | cons e rest ih =>
    rw [List.map_cons, List.nodup_cons] at h
    rw [addAll, List.foldl_cons, ← addAll, ih h.2]
    by_cases hmem : e.1 ∈ m.keys
    · simp [hmem]
    · have hrest : rest.filter (·.1 ∉ (m.insert e.1 e.2).keys) = rest.filter (·.1 ∉ m.keys) := by
        refine List.filter_congr fun other hother => ?_
        have hne : other.1 ≠ e.1 := fun heq => h.1 (heq ▸ List.mem_map_of_mem hother)
        simp [hne]
      rw [if_neg hmem, hrest, entries_insert_of_not_mem hmem]
      simp [hmem]

/-- What is written under new keys that are apart goes last, as it is. -/
theorem entries_writeAll_of_new {m : OrderedMap α β} {entries : List (α × β)}
    (h : ((m.entries ++ entries).map Prod.fst).Nodup) :
    (m.writeAll entries).entries = m.entries ++ entries := by
  induction entries generalizing m with
  | nil => exact (List.append_nil _).symm
  | cons e rest ih =>
    have hnew : e.1 ∉ m.keys := by
      rw [List.map_append, List.nodup_append] at h
      exact fun hmem => h.2.2 e.1 hmem e.1 List.mem_cons_self rfl
    have hentries := entries_insert_of_not_mem hnew e.2
    have hmore : m.entries ++ e :: rest = (m.insert e.1 e.2).entries ++ rest := by simp [hentries]
    rw [hmore] at h ⊢
    exact ih h

/-- Combining is writing the entries of the lower map, each with what becomes of its value, and adding those that
only the upper map has. -/
theorem combine_eq_addAll (both : β → β → β) (upper lower : OrderedMap α β) : combine both upper lower =
    (writeAll ∅ (lower.entries.map fun e => (e.1, ((upper.get? e.1).map (both · e.2)).getD e.2))).addAll
      upper.entries := by
  generalize hraised : lower.entries.map (fun e => (e.1, ((upper.get? e.1).map (both · e.2)).getD e.2)) = raised
  have hkeys : raised.map Prod.fst = lower.keys.toList := by
    rw [← hraised, List.map_map]
    rfl
  have hentries : (writeAll ∅ raised).entries = raised := entries_writeAll_of_new (hkeys ▸ lower.keys.nodup)
  have hlower : (writeAll ∅ raised).keys = lower.keys := by
    apply OrderedSet.ext
    rw [toList_keys, hentries, hkeys]
  apply OrderedMap.ext
  rw [entries_addAll upper.nodup, hlower, hentries, ← hraised]
  rfl

theorem toList_keys_writeAll {entries : List (α × β)} (h : (entries.map Prod.fst).Nodup) (m : OrderedMap α β) :
    (m.writeAll entries).keys.toList = m.keys.toList ++ (entries.map Prod.fst).filter (· ∉ m.keys) := by
  induction entries generalizing m with
  | nil => exact (List.append_nil _).symm
  | cons e rest ih =>
    rw [List.map_cons, List.nodup_cons] at h
    have hrest : (rest.map Prod.fst).filter (· ∉ (m.insert e.1 e.2).keys) =
        (rest.map Prod.fst).filter (· ∉ m.keys) := by
      refine List.filter_congr fun a ha => ?_
      have hne : a ≠ e.1 := fun heq => h.1 (heq ▸ ha)
      simp [hne]
    rw [writeAll, List.foldl_cons, ← writeAll, ih h.2, hrest, keys_insert, OrderedSet.toList_insert]
    by_cases hmem : e.1 ∈ m.keys <;> simp [hmem]

theorem get?_writeAll {entries : List (α × β)} (h : (entries.map Prod.fst).Nodup) (m : OrderedMap α β) (a : α) :
    (m.writeAll entries).get? a = ((entries.find? (·.1 = a)).map Prod.snd).or (m.get? a) := by
  induction entries generalizing m with
  | nil => rfl
  | cons e rest ih =>
    rw [List.map_cons, List.nodup_cons] at h
    rw [writeAll, List.foldl_cons, ← writeAll, ih h.2, get?_insert, List.find?_cons]
    by_cases he : e.1 = a
    · have hrest : rest.find? (·.1 = a) = none := by
        rw [List.find?_eq_none]
        intro other hother hsame
        exact h.1 (List.mem_map.2 ⟨other, hother, (of_decide_eq_true hsame).trans he.symm⟩)
      simp [he, hrest]
    · simp [he, Ne.symm he]

/-- Laying one map over another is writing the entries of the upper one to the lower one. -/
theorem overlay_eq_writeAll (upper lower : OrderedMap α β) :
    upper.overlay lower = lower.writeAll upper.entries := by
  refine ext_get? (OrderedSet.ext ?_) fun a => ?_
  · rw [toList_keys_writeAll upper.nodup, overlay, keys_combine]
    rfl
  · rw [get?_writeAll upper.nodup, get?_overlay]
    rfl

end OrderedMap

/-! ### Layers -/

namespace Setting.Value

variable {v w : Value}

theorem kind_eq_mapping_iff : v.kind = .mapping ↔ ∃ m, v = ofMapping m := by
  rw [← asMapping?_isSome_iff, Option.isSome_iff_exists]
  simp only [asMapping?_eq_some_iff]

end Setting.Value

namespace Settings

open Setting

/-- `merged` is `upper` laid over `lower`. -/
structure Layered (upper lower merged : Settings) : Prop where
  /-- The keys of the lower layer come first, and behind them those that only the upper one has. -/
  keys : merged.keys.toList = lower.keys.toList ++ upper.keys.toList.filter (· ∉ lower.keys)
  /-- Where the upper layer has nothing the lower one is as it was. -/
  lower_alone : ∀ key, upper.get? key = none → merged.get? key = lower.get? key
  /-- What only the upper layer has stands. -/
  upper_alone : ∀ key v, upper.get? key = some v → lower.get? key = none → merged.get? key = some v
  /-- So does what it has over something else, unless both are mappings. -/
  upper_wins : ∀ key v w, upper.get? key = some v → lower.get? key = some w →
    ¬ (v.kind = .mapping ∧ w.kind = .mapping) → merged.get? key = some v
  /-- Two mappings are laid over each other, and the values in them are kept whole. -/
  mappings : ∀ key m n, upper.get? key = some (.ofMapping m) → lower.get? key = some (.ofMapping n) →
    ∃ both, merged.get? key = some (.ofMapping both) ∧
      both.keys.toList = n.keys.toList ++ m.keys.toList.filter (· ∉ n.keys) ∧
      ∀ label, both.get? label = (m.get? label).or (n.get? label)

/-- Between a mapping of the upper layer and one of the lower layer there is a value that is no mapping. -/
def Severed (upper middle lower : Settings) : Prop :=
  ∃ key ∈ middle.keys.toList, (upper.get? key).map Value.kind = some .mapping ∧
    (middle.get? key).map Value.kind ≠ some .mapping ∧ (lower.get? key).map Value.kind = some .mapping

instance (upper middle lower : Settings) : Decidable (Severed upper middle lower) :=
  inferInstanceAs (Decidable (∃ key ∈ middle.keys.toList, _))

variable {upper middle lower merged other : Settings} {u v w : Value}

theorem get?_onto (upper lower : Settings) (key : Key) :
    (upper.onto lower).get? key = (upper.get? key).merge overlayValue (lower.get? key) := by
  rw [onto, OrderedMap.get?_combine]
  cases upper.get? key <;> cases lower.get? key <;> rfl

theorem overlayValue_of_mappings (m n : OrderedMap String Value) :
    overlayValue (.ofMapping m) (.ofMapping n) = .ofMapping (m.overlay n) := by
  rw [overlayValue, Value.asMapping?_ofMapping, Value.asMapping?_ofMapping]

theorem overlayValue_of_not_mappings (h : ¬ (v.kind = .mapping ∧ w.kind = .mapping)) : overlayValue v w = v := by
  rw [overlayValue]
  split
  · next m n hv hw =>
    rw [Value.asMapping?_eq_some_iff] at hv hw
    exact absurd ⟨hv ▸ rfl, hw ▸ rfl⟩ h
  · rfl

theorem overlayValue_self (v : Value) : overlayValue v v = v := by
  by_cases h : v.kind = .mapping
  · obtain ⟨m, rfl⟩ := Value.kind_eq_mapping_iff.1 h
    rw [overlayValue_of_mappings, OrderedMap.overlay_self]
  · exact overlayValue_of_not_mappings fun hboth => h hboth.1

/-- Values are laid over each other from above or from below, unless one that is no mapping stands between two
mappings. -/
theorem overlayValue_assoc (h : u.kind = .mapping → w.kind = .mapping → v.kind = .mapping) :
    overlayValue u (overlayValue v w) = overlayValue (overlayValue u v) w := by
  by_cases hv : v.kind = .mapping
  · obtain ⟨middle, rfl⟩ := Value.kind_eq_mapping_iff.1 hv
    by_cases hu : u.kind = .mapping
    · obtain ⟨upper, rfl⟩ := Value.kind_eq_mapping_iff.1 hu
      by_cases hw : w.kind = .mapping
      · obtain ⟨lower, rfl⟩ := Value.kind_eq_mapping_iff.1 hw
        simp only [overlayValue_of_mappings, OrderedMap.overlay_assoc]
      · have hnot : ∀ value : Value, ¬ (value.kind = .mapping ∧ w.kind = .mapping) := fun _ hboth => hw hboth.2
        rw [overlayValue_of_not_mappings (hnot _), overlayValue_of_not_mappings (hnot _)]
    · have hnot : ∀ value : Value, ¬ (u.kind = .mapping ∧ value.kind = .mapping) := fun _ hboth => hu hboth.1
      simp only [overlayValue_of_not_mappings (hnot _)]
  · -- what stands in the middle hides what is below it, and is hidden itself
    have hbelow : overlayValue v w = v := overlayValue_of_not_mappings fun hboth => hv hboth.1
    have habove : overlayValue u v = u := overlayValue_of_not_mappings fun hboth => hv hboth.2
    have hends : overlayValue u w = u := overlayValue_of_not_mappings fun hboth => hv (h hboth.1 hboth.2)
    rw [hbelow, habove, hends]

theorem onto_self (s : Settings) : s.onto s = s := OrderedMap.combine_self overlayValue_self s

theorem onto_empty (s : Settings) : s.onto ∅ = s := OrderedMap.combine_empty overlayValue s

theorem empty_onto (s : Settings) : Settings.onto ∅ s = s := OrderedMap.empty_combine overlayValue s

/-- Three layers are laid over each other from above or from below, unless a mapping is severed from another
one. -/
theorem onto_assoc (h : ¬ Severed upper middle lower) :
    upper.onto (middle.onto lower) = (upper.onto middle).onto lower := by
  refine OrderedMap.combine_assoc fun key u v w hu hv hw => overlayValue_assoc fun hu' hw' => ?_
  refine Decidable.byContradiction fun hv' => h ⟨key, OrderedMap.isSome_get?_iff.1 (by rw [hv]; rfl), ?_⟩
  simpa [hu, hv, hw] using ⟨hu', hv', hw'⟩

/-- With a flag between two mappings it matters where one begins. -/
example : let attributes (value : Value) : Settings := OrderedMap.ofList [(.attributes, value)]
    let upper := attributes (.ofMapping (OrderedMap.ofList [("type", .nil)]))
    let middle := attributes (.flag true)
    let lower := attributes (.ofMapping (OrderedMap.ofList [("lang", .nil)]))
    Severed upper middle lower ∧ upper.onto (middle.onto lower) ≠ (upper.onto middle).onto lower := by
  decide +kernel

theorem layered_onto (upper lower : Settings) : Layered upper lower (upper.onto lower) where
  keys := by
    rw [onto, OrderedMap.keys_combine]
    rfl
  lower_alone key hupper := by rw [get?_onto, hupper, Option.merge_none_left]
  upper_alone key v hupper hlower := by
    rw [get?_onto, hupper, hlower]
    rfl
  upper_wins key v w hupper hlower hkind := by
    rw [get?_onto, hupper, hlower]
    exact congrArg some (overlayValue_of_not_mappings hkind)
  mappings key m n hupper hlower := by
    refine ⟨m.overlay n, ?_, ?_, OrderedMap.get?_overlay m n⟩
    · rw [get?_onto, hupper, hlower]
      exact congrArg some (overlayValue_of_mappings m n)
    · rw [OrderedMap.overlay, OrderedMap.keys_combine]
      rfl

/-- The keys and values of two layers determine the result. -/
theorem Layered.unique (h : Layered upper lower merged) (h' : Layered upper lower other) : merged = other := by
  refine OrderedMap.ext_get? (OrderedSet.ext (h.keys.trans h'.keys.symm)) fun key => ?_
  cases hupper : upper.get? key with
  | none => rw [h.lower_alone key hupper, h'.lower_alone key hupper]
  | some v =>
    cases hlower : lower.get? key with
    | none => rw [h.upper_alone key v hupper hlower, h'.upper_alone key v hupper hlower]
    | some w =>
      by_cases hkind : v.kind = .mapping ∧ w.kind = .mapping
      · obtain ⟨m, rfl⟩ := Value.kind_eq_mapping_iff.1 hkind.1
        obtain ⟨n, rfl⟩ := Value.kind_eq_mapping_iff.1 hkind.2
        obtain ⟨both, hboth, hkeys, hget⟩ := h.mappings key m n hupper hlower
        obtain ⟨both', hboth', hkeys', hget'⟩ := h'.mappings key m n hupper hlower
        have hsame : both = both' := OrderedMap.ext_get? (OrderedSet.ext (hkeys.trans hkeys'.symm)) fun label => by
          rw [hget, hget']
        rw [hboth, hboth', hsame]
      · rw [h.upper_wins key v w hupper hlower hkind, h'.upper_wins key v w hupper hlower hkind]

/-- Laying settings over others keeps the keys of the lower layer in their order and adds the others of the upper
layer in theirs; what the upper layer says wins, and only mappings are laid over each other in their turn, entry
by entry. This is what writing one entry after the other comes to. A layer over itself or over nothing is as it
was, and so is a layer below nothing. Three layers are laid over each other from above or from below, unless
between two mappings there is something else. -/
theorem onto_layers (upper middle lower : Settings) :
    (∀ merged, upper.onto lower = merged ↔ Layered upper lower merged) ∧
    (upper.onto lower).keys.toList.Nodup ∧
    upper.onto lower = (OrderedMap.writeAll ∅ (lower.entries.map fun e =>
      (e.1, ((upper.get? e.1).map (overlayValue · e.2)).getD e.2))).addAll upper.entries ∧
    (∀ m n : OrderedMap String Value,
      overlayValue (.ofMapping m) (.ofMapping n) = .ofMapping (n.writeAll m.entries)) ∧
    upper.onto upper = upper ∧ upper.onto ∅ = upper ∧ Settings.onto ∅ lower = lower ∧
    (¬ Severed upper middle lower → upper.onto (middle.onto lower) = (upper.onto middle).onto lower) := by
  refine ⟨fun merged => ⟨?_, (layered_onto upper lower).unique⟩, (upper.onto lower).keys.nodup,
    OrderedMap.combine_eq_addAll overlayValue upper lower, fun m n => ?_, onto_self upper, onto_empty upper,
    empty_onto lower, onto_assoc⟩
  · rintro rfl
    exact layered_onto upper lower
  · rw [overlayValue_of_mappings, OrderedMap.overlay_eq_writeAll]

end Settings

namespace Terminology.Sample

open Setting

/-- The mapping of these entries. -/
def mapping (entries : List (String × Value)) : Value := .ofMapping (OrderedMap.ofList entries)

/-- What is said about a name, by itself and by two terms that it refers to. -/
def nameLayer : Settings := OrderedMap.ofList
  [(.attributes, mapping [("type", .text "personal"), ("origin", mapping [("place", .text "Trier")])]),
    (.required, .flag true)]

def agentLayer : Settings := OrderedMap.ofList
  [(.path, .text "agent"), (.attributes, mapping [("lang", .text "de"), ("type", .text "agent")])]

def thingLayer : Settings := OrderedMap.ofList
  [(.path, mapping [("attribute", .text "thing")]),
    (.attributes, mapping [("origin", mapping [("time", .text "1818")]), ("type", .text "thing")])]

/-- The path in the middle is no mapping, but there is none above it. The attributes are laid over each other in
the order in which they are met from below, and of their own mappings the upper one replaces the other. -/
theorem onto_of_three_layers : ¬ Settings.Severed nameLayer agentLayer thingLayer ∧
    nameLayer.onto (agentLayer.onto thingLayer) = (nameLayer.onto agentLayer).onto thingLayer ∧
    (nameLayer.onto thingLayer).keys.toList = [.path, .attributes, .required] ∧
    ∃ both, (nameLayer.onto thingLayer).get? .attributes = some (.ofMapping both) ∧
      both.keys.toList = ["origin", "type"] ∧
      both.get? "origin" = some (mapping [("place", .text "Trier")]) := by
  have hlinked : ¬ Settings.Severed nameLayer agentLayer thingLayer := by decide +kernel
  obtain ⟨hlayered, -, -, -, -, -, -, hassoc⟩ := Settings.onto_layers nameLayer agentLayer thingLayer
  have hresult := (hlayered _).1 rfl
  obtain ⟨both, hboth, hkeys, hget⟩ := hresult.mappings .attributes _ _ rfl rfl
  exact ⟨hlinked, hassoc hlinked, hresult.keys, both, hboth, hkeys, hget "origin"⟩

end Terminology.Sample

end TermAtlas
