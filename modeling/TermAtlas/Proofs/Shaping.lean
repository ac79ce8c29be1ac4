import TermAtlas.Proofs.Agreement

/-!
# Settings that shape a terminology

Only a few settings decide what is built: references and proxies, and those that path expressions are made
of. All other settings are carried along. Two registries that agree on the settings that shape a terminology
fail for the same reason, or are built as terminologies of the same shape; whether the others are there,
what they hold and in which order they stand leaves no trace outside the traits that they come to. Without
the constraints on attributes, what is left is the skeleton.

## What is proved

* `Settings.AgreeOn.congruence` — importing keeps settings in agreement.
* `Registry.map_shape_build` — what shapes a terminology, and what shapes its skeleton.
-/

namespace TermAtlas

open Setting

namespace Setting.Key

/-- The keys that decide which nodes there are and where documents have them. -/
def locating : List Key := [.path, .qualifier, .reference, .proxy]

/-- The same with the constraints on attributes. -/
def shaping : List Key := .attributes :: locating

end Setting.Key

/-! ### Shapes -/

/-- The traits that path expressions are made of; all others as if nothing had been said. -/
def Traits.shape (traits : Traits) : Traits :=
  { traits with
    required := false
    dataType := defaultDataType
    indexAs := ∅
    contentPath := none
    variantOf := none
    isRoot := false
    extensions := ∅ }

/-- The same without the constraints on attributes. -/
def Traits.skeleton (traits : Traits) : Traits := { traits.shape with attributes := [] }

/-- The node without what is carried along: other traits of a term, and the settings of a proxy. -/
def Node.shape : Node → Node
  | term t => term { t with traits := t.traits.shape }
  | proxy p => proxy { p with settings := ∅ }

/-- The same without the constraints on attributes, in the traits and in the path expressions. -/
def Node.skeleton : Node → Node
  | term t => term { t with traits := t.traits.skeleton, paths := { t.paths with constrained := "" } }
  | proxy p => proxy { p with settings := ∅ }

namespace Terminology

/-- The terminology without what is carried along. -/
def shape (t : Terminology) : Terminology := { t with nodes := t.nodes.map Node.shape }

/-- The same without the constraints on attributes. -/
def skeleton (t : Terminology) : Terminology := { t with nodes := t.nodes.map Node.skeleton }

end Terminology

/-! ### Agreement on some keys -/

/-- The same values under these keys, or none in both. -/
def Settings.AgreeOn (keys : List Key) (s s' : Settings) : Prop := ∀ key ∈ keys, s'.get? key = s.get? key

instance (keys : List Key) (s s' : Settings) : Decidable (s.AgreeOn keys s') :=
  inferInstanceAs (Decidable (∀ key ∈ keys, s'.get? key = s.get? key))

variable {keys : List Key} {s s' : Settings} {r r' : Registry}

theorem Settings.AgreeOn.insert (h : s.AgreeOn keys s') (key : Key) (value : Value) :
    Settings.AgreeOn keys (OrderedMap.insert s key value) (OrderedMap.insert s' key value) := by
  intro other hother
  rw [OrderedMap.get?_insert, OrderedMap.get?_insert, h other hother]

theorem Settings.AgreeOn.insert_right (h : s.AgreeOn keys s') {key : Key} (hkey : key ∉ keys)
    (value : Value) : Settings.AgreeOn keys s (OrderedMap.insert s' key value) := by
  intro other hother
  have hne : other ≠ key := fun heq => hkey (heq ▸ hother)
  rw [OrderedMap.get?_insert, if_neg hne, h other hother]

/-- Agreement on the keys of references, proxies and paths is a congruence. -/
theorem Settings.AgreeOn.congruence (hkeys : Key.locating ⊆ keys) :
    Settings.Congruence (Settings.AgreeOn keys) where
  reference s s' h := by rw [pointer?, pointer?, h .reference (hkeys (by decide))]
  proxy s s' h := by rw [pointer?, pointer?, h .proxy (hkeys (by decide))]
  path s s' h := by rw [h .path (hkeys (by decide))]
  onto s s' below below' h hbelow key hkey := by
    rw [Settings.onto, Settings.onto, OrderedMap.get?_combine, OrderedMap.get?_combine, h key hkey,
      hbelow key hkey]
  set _ _ _ h := h.insert _ _
  unset s s' h key hkey := by
    rw [OrderedMap.get?_erase, OrderedMap.get?_erase, h key hkey]

theorem Settings.AgreeOn.shape_eq (h : s.AgreeOn Key.shaping s') (name : Name) :
    (Traits.ofSettings name s').shape = (Traits.ofSettings name s).shape := by
  simp only [Traits.shape, Traits.ofSettings, h .path (by decide), h .qualifier (by decide),
    h .attributes (by decide)]

theorem Settings.AgreeOn.skeleton_eq (h : s.AgreeOn Key.locating s') (name : Name) :
    (Traits.ofSettings name s').skeleton = (Traits.ofSettings name s).skeleton := by
  simp only [Traits.skeleton, Traits.shape, Traits.ofSettings, h .path (by decide),
    h .qualifier (by decide)]

/-- Settings under other keys, written first, do not disturb agreement. -/
theorem Settings.agreeOn_ofList_append {more : List (Key × Value)} (h : ∀ entry ∈ more, entry.1 ∉ keys)
    (entries : List (Key × Value)) :
    Settings.AgreeOn keys (OrderedMap.ofList entries) (OrderedMap.ofList (more ++ entries)) := by
  -- up to here nothing is said under the keys, and what follows is written over both alike
  have hmore : ∀ s' : Settings, Settings.AgreeOn keys ∅ s' →
      Settings.AgreeOn keys ∅ (more.foldl (fun m e => m.insert e.1 e.2) s') := by
    intro s' hs
    induction more generalizing s' with
    | nil => exact hs
    | cons entry rest ih =>
      obtain ⟨hentry, hrest⟩ := List.forall_mem_cons.1 h
      exact ih hrest _ (hs.insert_right hentry entry.2)
  have hentries : ∀ s s' : Settings, s.AgreeOn keys s' →
      Settings.AgreeOn keys (entries.foldl (fun m e => m.insert e.1 e.2) s)
        (entries.foldl (fun m e => m.insert e.1 e.2) s') := by
    intro s s' hs
    induction entries generalizing s s' with
    | nil => exact hs
    | cons entry rest ih => exact ih _ _ (hs.insert entry.1 entry.2)
  rw [OrderedMap.ofList, OrderedMap.ofList, List.foldl_append]
  exact hentries _ _ (hmore ∅ fun _ _ => rfl)

theorem map_eq_map_of_forall₂ {α β γ : Type} {R : α → β → Prop} {f : α → γ} {g : β → γ} {as : List α}
    {bs : List β} (h : List.Forall₂ R as bs) (hfg : ∀ a b, R a b → f a = g b) : as.map f = bs.map g := by
  induction h with
  | nil => rfl
  | cons hab _ ih => rw [List.map_cons, List.map_cons, hfg _ _ hab, ih]

/-! ### Path expressions -/

theorem Traits.shape_eq_iff {traits traits' : Traits} : traits'.shape = traits.shape ↔
    traits'.locator = traits.locator ∧ traits'.qualifier = traits.qualifier ∧
      traits'.attributes = traits.attributes := by
  simp [shape]

theorem Traits.skeleton_eq_iff {traits traits' : Traits} : traits'.skeleton = traits.skeleton ↔
    traits'.locator = traits.locator ∧ traits'.qualifier = traits.qualifier := by
  simp [skeleton, shape]

theorem Traits.segment_congr {traits traits' : Traits} (hlocator : traits'.locator = traits.locator)
    (hqualifier : traits'.qualifier = traits.qualifier) : traits'.segment = traits.segment := by
  rw [segment, segment, hlocator, hqualifier]

/-- Path expressions are made of what shapes a terminology. -/
theorem XPaths.congruence_shape :
    XPaths.Congruence (fun traits traits' => traits'.shape = traits.shape) fun paths paths' => paths' = paths := by
  intro above above' traits traits' habove htraits
  obtain ⟨hlocator, hqualifier, hattributes⟩ := Traits.shape_eq_iff.1 htraits
  have hsegment := Traits.segment_congr hlocator hqualifier
  have hpredicates : traits'.predicates = traits.predicates := by
    rw [Traits.predicates, Traits.predicates, Traits.isElement, Traits.isElement, hlocator, hattributes]
  cases habove with
  | none => rw [below, below, hsegment, hpredicates]
  | some hpaths => rw [below, below, hsegment, hpredicates, hpaths]

/-- Those without attribute constraints are made of what shapes the skeleton. -/
theorem XPaths.congruence_skeleton :
    XPaths.Congruence (fun traits traits' => traits'.skeleton = traits.skeleton) fun paths paths' =>
      paths'.absolute = paths.absolute ∧ paths'.relative = paths.relative := by
  intro above above' traits traits' habove htraits
  obtain ⟨hlocator, hqualifier⟩ := Traits.skeleton_eq_iff.1 htraits
  have hsegment := Traits.segment_congr hlocator hqualifier
  cases habove with
  | none => simp only [below, hsegment, and_self]
  | some hpaths => simp only [below, hsegment, hpaths.1, and_self]

/-! ### Building -/

namespace Terminology

variable {t t' : Terminology}

theorem shape_eq_of_alike (h : t.Alike (Settings.AgreeOn Key.shaping)
    (fun traits traits' => traits'.shape = traits.shape) (fun paths paths' => paths' = paths) t') :
    t.shape = t'.shape := by
  have hnodes : t.nodes.map Node.shape = t'.nodes.map Node.shape := by
    refine map_eq_map_of_forall₂ h.nodes fun node node' hnode => ?_
    cases hnode with
    | term htraits hpaths => rw [Node.shape, Node.shape, htraits, hpaths]
    | proxy _ => rfl
  rw [shape, shape, hnodes, h.roots]

theorem skeleton_eq_of_alike (h : t.Alike (Settings.AgreeOn Key.locating)
    (fun traits traits' => traits'.skeleton = traits.skeleton)
    (fun paths paths' => paths'.absolute = paths.absolute ∧ paths'.relative = paths.relative) t') :
    t.skeleton = t'.skeleton := by
  have hnodes : t.nodes.map Node.skeleton = t'.nodes.map Node.skeleton := by
    refine map_eq_map_of_forall₂ h.nodes fun node node' hnode => ?_
    cases hnode with
    | term htraits hpaths => simp only [Node.skeleton, htraits, hpaths.1, hpaths.2]
    | proxy _ => rfl
  rw [skeleton, skeleton, hnodes, h.roots]

end Terminology

/-- Only what shapes a terminology decides what is built. Registries whose declarations agree on it fail
for the same reason, or give terminologies of the same shape; if they agree but for the constraints on
attributes, terminologies of the same skeleton. -/
theorem Registry.map_shape_build :
    (∀ r r' : Registry, r.Alike (Settings.AgreeOn Key.shaping) r' →
      r'.build.result.map Terminology.shape = r.build.result.map Terminology.shape) ∧
    ∀ r r' : Registry, r.Alike (Settings.AgreeOn Key.locating) r' →
      r'.build.result.map Terminology.skeleton = r.build.result.map Terminology.skeleton := by
  constructor
  · intro r r' h
    have hbuild := h.build (Settings.AgreeOn.congruence (List.subset_cons_self _ _))
      (fun name s s' hs => hs.shape_eq name) XPaths.congruence_shape
    exact (hbuild.map_eq fun _ _ halike => Terminology.shape_eq_of_alike halike).symm
  · intro r r' h
    have hbuild := h.build (Settings.AgreeOn.congruence (List.Subset.refl _))
      (fun name s s' hs => hs.skeleton_eq name) XPaths.congruence_skeleton
    exact (hbuild.map_eq fun _ _ halike => Terminology.skeleton_eq_of_alike halike).symm

namespace Terminology.Sample

/-- The registry with more settings of names, of persons, of the text of a role, and of a proxy. -/
def registryWith (more : List (Key × Value)) : Registry where
  roots := [
    declaration 0 "name" (more ++ []) [
      declaration 1 "part" [] [],
      declaration 2 "role" [] [declaration 3 "text" (more ++ [(.path, .text "roleTerm")]) []],
      declaration 4 "roleText" (more ++ [(.proxy, .pointer (pointer ["role", "text"]))]) []],
    declaration 5 "person" (more ++ [
      (.reference, .pointer (pointer ["name"])),
      (.attributes, .ofMapping (OrderedMap.ofList [("type", .text "personal")]))]) [],
    declaration 6 "role" [(.proxy, .pointer (pointer ["name", "roleText"]))] []]
  distinct := registry.distinct

theorem alike_registryWith {more : List (Key × Value)} (h : ∀ entry ∈ more, entry.1 ∉ keys) :
    registry.Alike (Settings.AgreeOn keys) (registryWith more) := by
  have hmore := Settings.agreeOn_ofList_append h
  have hleaf : ∀ number name entries, Declaration.Alike (Settings.AgreeOn keys)
      (declaration number name entries []) (declaration number name (more ++ entries) []) := by
    intro number name entries
    exact .intro rfl rfl (hmore entries) .nil
  have hsame : ∀ number name entries, Declaration.Alike (Settings.AgreeOn keys)
      (declaration number name entries []) (declaration number name entries []) := by
    intro number name entries
    exact .intro rfl rfl (fun _ _ => rfl) .nil
  refine .cons (.intro rfl rfl (hmore []) ?_) (.cons (hleaf ..) (.cons (hsame ..) .nil))
  refine .cons (hsame ..) (.cons (.intro rfl rfl (fun _ _ => rfl) ?_) (.cons (hleaf ..) .nil))
  exact .cons (hleaf ..) .nil

/-- Settings that are carried along. -/
def notes : List (Key × Value) :=
  [(.required, .flag true), (.extension "path", .text "note"), (.dataType, .text "date")]

/-- Another constraint on attributes. -/
def constraint : List (Key × Value) :=
  [(.attributes, .ofMapping (OrderedMap.ofList [("usage", .text "primary")]))]

/-- Notes on declarations do not change the shape, and a constraint changes it, but not the skeleton. -/
theorem shape_of_notes :
    registry.Alike (Settings.AgreeOn Key.shaping) (registryWith notes) ∧
    registry.Alike (Settings.AgreeOn Key.locating) (registryWith constraint) ∧
    (registryWith notes).build.result.map shape = .ok built.shape ∧
    (registryWith constraint).build.result.map shape ≠ .ok built.shape ∧
    (registryWith constraint).build.result.map skeleton = .ok built.skeleton := by
  have hnotes : registry.Alike (Settings.AgreeOn Key.shaping) (registryWith notes) :=
    alike_registryWith (by decide)
  have hconstraint : registry.Alike (Settings.AgreeOn Key.locating) (registryWith constraint) :=
    alike_registryWith (by decide)
  obtain ⟨hshape, hskeleton⟩ := Registry.map_shape_build
  have hnotes' := hshape _ _ hnotes
  have hconstraint' := hskeleton _ _ hconstraint
  rw [result_build] at hnotes' hconstraint'
  exact ⟨hnotes, hconstraint, hnotes', by decide +kernel, hconstraint'⟩

end Terminology.Sample

end TermAtlas
