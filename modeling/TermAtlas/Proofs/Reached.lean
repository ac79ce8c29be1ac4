import TermAtlas.Terminology.Graft

/-!
# Reached terminologies

A terminology is *reached* when it is the outcome of building a registry, or a declaration alone,
and then of any number of changes: grafts, where those that fail leave the terminology as it was, and
deriving paths anew.

## What is proved

* `build_eq_ok_iff`, `graft_eq_ok_iff` — what a build and a graft that succeed have done.
* `checkLinks_eq_ok_iff` — the check passes exactly when every proxy stands for a term.
-/

namespace TermAtlas

namespace Terminology

/-- Something done to a terminology that is built. -/
inductive Change where
  /-- Builds a declaration below the term at a pointer. -/
  | graft (pointer : Pointer) (declaration : Declaration) (registry : Option Registry)
  /-- Derives the paths of a node and all nodes below it anew. -/
  | regenerate (id : Nat)

/-- The terminology after a change; a graft that fails changes nothing. -/
def after (t : Terminology) : Change → Terminology
  | .graft p d registry =>
    match (t.graft p d registry).result with
    | .ok (grown, _) => grown
    | .error _ => t
  | .regenerate id => t.regenerate id

/-- The terminologies that are built and then changed any number of times. -/
inductive Reached : Terminology → Prop where
  /-- A registry was built. -/
  | built {r : Registry} {t : Terminology} : r.build.result = .ok t → Reached t
  /-- A declaration was built alone. -/
  | builtAlone {d : Declaration} {registry : Option Registry} {t : Terminology} :
      (d.build registry).result = .ok t → Reached t
  /-- A reached terminology was changed. -/
  | changed {t : Terminology} (change : Change) : Reached t → Reached (t.after change)

/-- Any number of changes, one after the other, lead to a reached terminology again. -/
theorem Reached.run {t : Terminology} (h : Reached t) (changes : List Change) :
    Reached (changes.foldl after t) := by
  induction changes generalizing t with
  | nil => exact h
  | cons change rest ih => exact ih (h.changed change)

/-! ### What succeeds -/

/-- The check of one node passes exactly when the node, if it is a proxy, stands for a term. -/
theorem checkLink_eq_ok_iff {t : Terminology} {node : Node} :
    (t.checkLink node).result = .ok () ↔
      ∀ proxy, node = .proxy proxy → ∃ term, t.resolveProxy proxy.id = .ok term := by
  cases node with
  | term term => exact ⟨fun _ => nofun, fun _ => rfl⟩
  | proxy proxy => simp [checkLink, Logged.result_bind_eq_ok_iff, -Logged.result_bind]

/-- The check passes exactly when every proxy stands for a term. -/
theorem checkLinks_eq_ok_iff {t : Terminology} :
    t.checkLinks.result = .ok () ↔
      ∀ proxy, Node.proxy proxy ∈ t.nodes → ∃ term, t.resolveProxy proxy.id = .ok term := by
  simp only [checkLinks, Logged.result_bind_eq_ok_iff, Logged.result_traverse_eq_ok_iff,
    Logged.result_pure, and_true]
  constructor
  · rintro ⟨units, hunits⟩ proxy hproxy
    have hmem : (t.checkLink (.proxy proxy)).result ∈ units.map Except.ok :=
      hunits ▸ List.mem_map_of_mem hproxy
    obtain ⟨⟨⟩, -, hok⟩ := List.mem_map.1 hmem
    exact checkLink_eq_ok_iff.1 hok.symm proxy rfl
  · intro h
    refine ⟨t.nodes.map fun _ => (), ?_⟩
    rw [List.map_map]
    refine List.map_congr_left fun node hnode => checkLink_eq_ok_iff.2 ?_
    rintro proxy rfl
    exact h proxy hnode

/-- What a build that succeeds has done. -/
theorem build_eq_ok_iff {registry : Option Registry} {declarations : List Declaration}
    {t : Terminology} :
    (build registry declarations).result = .ok t ↔
      ∃ forest, declarations.map (fun d => (d.expand registry).result) = forest.map Except.ok ∧
        t = ofForest forest ∧ t.checkLinks.result = .ok () := by
  simp only [build, Logged.result_bind_eq_ok_iff, Logged.result_traverse_eq_ok_iff,
    Logged.result_notes, Logged.result_pure, Except.ok.injEq]
  constructor
  · rintro ⟨forest, hforest, ⟨⟩, hlinks, ⟨⟩, -, rfl⟩
    exact ⟨forest, hforest, rfl, hlinks⟩
  · rintro ⟨forest, hforest, rfl, hlinks⟩
    exact ⟨forest, hforest, (), hlinks, (), trivial, rfl⟩

/-- What a graft that succeeds has done. -/
theorem graft_eq_ok_iff {t grown : Terminology} {p : Pointer} {d : Declaration}
    {registry : Option Registry} {id : Nat} :
    (t.graft p d registry).result = .ok (grown, id) ↔
      ∃ above parent e, t.locate none p = .ok above ∧ t.term? above = some parent ∧
        (d.expand registry).result = .ok e ∧ grown = t.attach parent e ∧
        grown.checkLinks.result = .ok () ∧ id = t.size := by
  rw [graft, Logged.result_bind_eq_ok_iff]
  constructor
  · rintro ⟨above, habove, h⟩
    split at h
    · cases h
    · next parent hparent =>
      simp only [Logged.result_bind_eq_ok_iff, Logged.result_pure, Except.ok.injEq,
        Prod.mk.injEq] at h
      obtain ⟨e, he, ⟨⟩, hlinks, -, -, -, -, rfl, rfl⟩ := h
      exact ⟨above, parent, e, habove, hparent, he, rfl, hlinks, rfl⟩
  · rintro ⟨above, parent, e, habove, hparent, he, rfl, hlinks, rfl⟩
    refine ⟨above, habove, ?_⟩
    simp only [hparent, Logged.result_bind_eq_ok_iff]
    exact ⟨e, he, (), hlinks, (), rfl, (), rfl, rfl⟩

end Terminology

namespace Registry

/-- Building a registry builds its roots. -/
theorem build_eq_ok_iff {r : Registry} {t : Terminology} :
    r.build.result = .ok t ↔ (Terminology.build (some r) r.roots).result = .ok t := by
  simp only [build, Logged.result_bind_eq_ok_iff, Logged.result_pure, Except.ok.injEq]
  constructor
  · rintro ⟨_, h, ⟨⟩, -, rfl⟩
    exact h
  · intro h
    exact ⟨t, h, (), rfl, rfl⟩

end Registry

/-! ### A terminology with a history -/

namespace Terminology.Sample

/-- The pointer of these names. -/
def pointer (names : List String) : Pointer := ⟨names.map Name.mk⟩

/-- The declaration of this identity, name, settings and children. -/
def declaration (number : Nat) (name : String) (settings : List (Setting.Key × Setting.Value))
    (children : List Declaration) : Declaration :=
  ⟨⟨number⟩, ⟨name⟩, OrderedMap.ofList settings, children⟩

/-- Names whose roles have texts, persons, which are names of a type, and a proxy that leads to the
text of a role through another proxy. -/
def registry : Registry where
  roots := [
    declaration 0 "name" [] [
      declaration 1 "part" [] [],
      declaration 2 "role" [] [declaration 3 "text" [(.path, .text "roleTerm")] []],
      declaration 4 "roleText" [(.proxy, .pointer (pointer ["role", "text"]))] []],
    declaration 5 "person" [
      (.reference, .pointer (pointer ["name"])),
      (.attributes, .ofMapping (OrderedMap.ofList [("type", .text "personal")]))] [],
    declaration 6 "role" [(.proxy, .pointer (pointer ["name", "roleText"]))] []]
  distinct := by decide

/-- A role that has a code beside the text. -/
def role : Declaration :=
  declaration 7 "role" [] [declaration 8 "text" [] [], declaration 9 "code" [] []]

/-- The terminology of the registry. -/
def built : Terminology := registry.build.result.toOption.getD default

/-- The same with another role of persons; the old one, with number 7, is detached. -/
def grafted : Terminology := built.after (.graft (pointer ["person"]) role (some registry))

theorem eq_ok_get {α : Type} {x : Except Error α} (h : x.toOption.isSome) :
    x = .ok (x.toOption.get h) := by
  cases x with
  | error e => cases h
  | ok a => rfl

theorem result_build : registry.build.result = .ok built := by
  have hsome : registry.build.result.toOption.isSome := by decide +kernel
  rw [built, eq_ok_get hsome]
  rfl

theorem reached_built : built.Reached := .built result_build

theorem reached_grafted : grafted.Reached := reached_built.changed _

end Terminology.Sample

end TermAtlas
