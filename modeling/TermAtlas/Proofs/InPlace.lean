import TermAtlas.Proofs.Construction
import TermAtlas.Proofs.Detached
import TermAtlas.Proofs.Session
import TermAtlas.Proofs.Undo
import TermAtlas.Proofs.Unwinding

/-!
# Changes in place

A graft in place changes the terminology on the way and takes everything back if it fails; if it does not
fail, a loop derives the paths of the new nodes. `graft` derives a new terminology and keeps the old one
as it is. The two agree: as long as the names of siblings are apart, the graft in place comes to an end,
gives and records the same, and what it leaves behind is the new terminology, or the old one if there is
none. So a history of changes can be carried out in place, and a graft that fails in it leaves no trace:
whatever comes later goes on as if it had not been tried.

## What is proved

* `enter_sketch_eq_bareFrom` — what was constructed and entered is what is attached, but for the new
  paths.
* `Coherent.graftInPlace_eq`, `Coherent.regenerateInPlace_eq` — a change in place does what the change does.
* `runInPlace_of_error`, `Coherent.exists_runInPlace` — histories in place.
* `Reached.graft_inPlace` — a failed graft is invisible.
* `Workspace.Sound.graft_inPlace_eq` — all that a session keeps can be grafted in place.
-/

namespace TermAtlas

namespace Terminology

/-- Carries out a change in place, if that comes to an end: the number of the new node if there is one,
and the terminology that is left behind. -/
def Change.perform : Change → Terminology → Part (Logged (Option Nat) × Terminology)
  | .graft p d registry, t => (t.graftInPlace p d registry).map (Prod.map (some <$> ·) id)
  | .regenerate id, t => (t.regenerateInPlace id).map (Prod.map ((fun _ => none) <$> ·) (·))

/-- Carries out changes in place, one after the other, whether they fail or not: what each of them gives,
and the terminology in the end. -/
def runInPlace : List Change → Terminology → Part (List (Logged (Option Nat)) × Terminology)
  | [], t => Part.some ([], t)
  | change :: rest, t =>
    (change.perform t).bind fun (answer, after) => (runInPlace rest after).map (Prod.map (answer :: ·) id)

/-- The names of siblings are apart in all that is built. -/
def Change.Apart : Change → Prop
  | .graft _ d registry => d.Apart ∧ ∀ r, registry = some r → r.Apart
  | .regenerate _ => True

variable {t : Terminology} {parent : Term} {p : Pointer} {d : Declaration} {e : Expansion}
  {registry : Option Registry}

/-- What is there before paths are derived: the terminology after the graft, but for the new paths. -/
theorem enter_sketch_eq_bareFrom (hparent : parent.id < t.size) :
    (t.sketch (some (parent.id, parent.paths)) e).enter parent.id ⟨e.name, t.size⟩ =
      (t.attach parent e).bareFrom t.size := by
  refine ext_node? rfl fun id => ?_
  rw [enter, node?_modify, node?_bareFrom]
  by_cases hid : id < t.size
  · rw [node?_sketch_of_lt hid, node?_attach_of_lt hid, Option.map_map]
    simp [hid, Function.comp_def]
  · have hne : id ≠ parent.id := by omega
    rw [node?_sketch_of_le (by omega), node?_attach_of_le (by omega)]
    simp [hid, hne, Function.comp_def]

/-- The nodes of a tree that is attached come last, and are walked in the order of their numbers. -/
theorem Coherent.subtree_attach (h : (t.attach parent e).Coherent) :
    (t.attach parent e).subtree t.size = List.range' t.size e.size :=
  (holds_attach t parent e).subtree_eq h

/-- When the construction is done and its node is entered, all is there but the new paths. -/
theorem state_construct_enter (hd : d.Apart) (hregistry : ∀ r, registry = some r → r.Apart)
    (hparent : t.term? parent.id = some parent) (hexpand : (d.expand registry).result = .ok e) :
    ((d.construct registry parent.id).state t).enter parent.id ⟨d.name, t.size⟩ =
      (t.attach parent e).bareFrom t.size := by
  have hname : e.name = d.name := Declaration.name_of_expandWithin hexpand
  rw [Declaration.state_construct hregistry hd hexpand, ← hname,
    enter_sketch_eq_bareFrom (lt_size_of_term? hparent)]

/-- Deriving the paths of the new nodes completes the graft. -/
theorem Coherent.regenerate_attach (h : (t.attach parent e).Coherent) :
    ((t.attach parent e).bareFrom t.size).regenerate t.size = t.attach parent e :=
  h.toArranged.regenerate_bareFrom h.subtree_attach (size_attach t parent e).symm

theorem result_construct (hexpand : (d.expand registry).result = .ok e) (id : Nat) :
    ((d.construct registry id).outcome t).result = .ok t.size := by
  rw [Declaration.outcome_construct, Logged.result_map, hexpand]
  rfl

/-- What is left behind by a graft that fails before paths are derived. -/
theorem graftInPlace_of_error {log : List Event} {error : Error}
    (h : (Work.attach p d registry).outcome t = ⟨log, .error error⟩) :
    t.graftInPlace p d registry = Part.some (⟨log, .error error⟩, t) := by
  have hresult : ((Work.attach p d registry).outcome t).result = .error error := by rw [h]
  rw [graftInPlace, Work.thenUnwind_of_error hresult, Work.state_attach_of_error hresult, h]

theorem after_graft_of_error {log : List Event} {error : Error}
    (h : t.graft p d registry = ⟨log, .error error⟩) : t.after (.graft p d registry) = t := by
  rw [Terminology.after, h]

/-- A graft below a term that was found. -/
theorem graft_of_locate (hparent : t.term? parent.id = some parent)
    (hlocate : t.locate none p = .ok parent.id) :
    t.graft p d registry = (do
      let e ← d.expand registry
      let grown := t.attach parent e
      grown.checkLinks
      Logged.note (.grafted d.name p)
      Logged.notes (grown.locations (List.range' t.size e.size))
      pure (grown, t.size)) := by
  have hresult : (Logged.ofExcept (t.locate none p)).result = .ok parent.id := hlocate
  rw [graft, Logged.bind_of_ok hresult, hparent]
  rfl

/-- Before paths are derived, a graft in place below this term has recorded what a graft records up to
then. -/
theorem outcome_attach (hd : d.Apart) (hregistry : ∀ r, registry = some r → r.Apart)
    (hparent : t.term? parent.id = some parent) (hlocate : t.locate none p = .ok parent.id) :
    (Work.attach p d registry).outcome t = (do
      let e ← d.expand registry
      (t.attach parent e).checkLinks
      Logged.note (.grafted d.name p)
      pure t.size) := by
  have hresult : (Logged.ofExcept (t.locate none p)).result = .ok parent.id := hlocate
  unfold Work.attach
  simp only [Work.outcome_bind, Work.outcome_current, Work.state_current, pure_bind, Work.outcome_ofLogged,
    Work.state_ofLogged]
  rw [Logged.bind_of_ok hresult]
  simp only [Work.outcome_orUndo, Declaration.outcome_construct, bind_map_left]
  refine Logged.bind_congr_of_result fun e hexpand => ?_
  rw [Work.state_orUndo_of_ok (result_construct hexpand _)]
  simp only [Work.outcome_enter, Work.state_enter, pure_bind, Work.outcome_checkLinks,
    state_construct_enter hd hregistry hparent hexpand, checkLinks_bareFrom, Work.outcome_pure]

/-- Then all is there but the new paths. -/
theorem state_attach (hd : d.Apart) (hregistry : ∀ r, registry = some r → r.Apart)
    (hparent : t.term? parent.id = some parent) (hlocate : t.locate none p = .ok parent.id)
    (hexpand : (d.expand registry).result = .ok e)
    (hlinks : (t.attach parent e).checkLinks.result = .ok ()) :
    (Work.attach p d registry).state t = (t.attach parent e).bareFrom t.size := by
  have hlocate' : (Logged.ofExcept (t.locate none p)).result = .ok parent.id := hlocate
  have hlinks' : (Work.checkLinks.outcome ((t.attach parent e).bareFrom t.size)).result = .ok () := by
    rw [Work.outcome_checkLinks, checkLinks_bareFrom, hlinks]
  unfold Work.attach
  rw [Work.state_current_bind, Work.state_ofLogged_bind hlocate',
    Work.state_orUndo_bind (result_construct hexpand parent.id), Work.state_bind_of_ok (x := Work.enter _ _) rfl,
    Work.state_enter, state_construct_enter hd hregistry hparent hexpand,
    Work.state_orUndo_bind hlinks', Work.state_checkLinks, Work.state_ofLogged_bind (Logged.result_note _),
    Work.state_pure]

/-- A graft in place comes to an end. It gives and records what a graft does, and leaves behind what the
graft gives, or the terminology as it was. -/
theorem Coherent.graftInPlace_eq (h : t.Coherent) (hd : d.Apart)
    (hregistry : ∀ r, registry = some r → r.Apart) (p : Pointer) :
    t.graftInPlace p d registry =
      Part.some (Prod.snd <$> t.graft p d registry, t.after (.graft p d registry)) := by
  have hfails : ∀ log error, (Work.attach p d registry).outcome t = ⟨log, .error error⟩ →
      t.graft p d registry = ⟨log, .error error⟩ → t.graftInPlace p d registry =
        Part.some (Prod.snd <$> t.graft p d registry, t.after (.graft p d registry)) := by
    intro log error houtcome hgraft
    rw [graftInPlace_of_error houtcome, after_graft_of_error hgraft, hgraft]
    rfl
  cases hlocate : t.locate none p with
  | error error =>
    have hresult : (Logged.ofExcept (t.locate none p)).result = .error error := hlocate
    refine hfails [] error ?_ ?_
    · unfold Work.attach
      simp only [Work.outcome_bind, Work.outcome_current, Work.state_current, pure_bind,
        Work.outcome_ofLogged]
      rw [Logged.bind_of_error hresult]
      rfl
    · rw [graft, Logged.bind_of_error hresult]
      rfl
  | ok above =>
    obtain ⟨parent, hparent⟩ := exists_term_of_locate hlocate
    obtain rfl := h.id_of_term? hparent
    have houtcome := outcome_attach hd hregistry hparent hlocate
    have hgraft : t.graft p d registry = _ := graft_of_locate hparent hlocate
    cases hexpand : (d.expand registry).result with
    | error error =>
      rw [Logged.bind_of_error hexpand] at houtcome hgraft
      exact hfails _ error houtcome hgraft
    | ok e =>
      rw [Logged.bind_of_ok hexpand] at houtcome hgraft
      cases hlinks : (t.attach parent e).checkLinks.result with
      | error error =>
        rw [Logged.bind_of_error hlinks] at houtcome hgraft
        exact hfails _ error houtcome hgraft
      | ok checked =>
        rw [Logged.bind_of_ok hlinks, Logged.bind_of_ok (Logged.result_note _)] at houtcome hgraft
        rw [Logged.bind_of_ok (Logged.result_notes _)] at hgraft
        have hcoherent := h.attach hparent hlinks
        have hresult : ((Work.attach p d registry).outcome t).result = .ok t.size := by rw [houtcome]; rfl
        rw [graftInPlace, Work.thenUnwind_of_ok hresult, state_attach hd hregistry hparent hlocate hexpand hlinks,
          hcoherent.run_singleton ((t.attach parent e).scope_bareFrom t.size), hcoherent.regenerate_attach,
          hcoherent.subtree_attach, Part.map_some, houtcome, Terminology.after, hgraft]
        refine congrArg Part.some (Prod.ext (Logged.ext ?_ rfl) rfl)
        simp [Logged.note, Logged.notes]

/-- Deriving paths anew in place comes to an end, and does what the recursion does. -/
theorem Coherent.regenerateInPlace_eq (h : t.Coherent) (id : Nat) :
    t.regenerateInPlace id =
      Part.some ((fun _ => ()) <$> t.regenerateLogged id, t.after (.regenerate id)) := by
  rw [regenerateInPlace, Work.thenUnwind_of_ok (a := ()) rfl, Terminology.after, regenerateLogged,
    h.regenerate_eq, Work.state_pure]
  by_cases hid : id < t.size
  · rw [if_pos hid, h.run_singleton (fun _ => rfl), h.regenerate_eq, Part.map_some,
      Logged.bind_of_ok (Logged.result_notes _)]
    refine congrArg Part.some (Prod.ext (Logged.ext ?_ rfl) rfl)
    simp [Logged.notes]
  · have hterm : t.term? id = none := by
      refine Option.eq_none_iff_forall_not_mem.2 fun term hterm => hid (lt_size_of_term? hterm)
    have hsubtree : t.subtree id = [id] := by
      rw [subtree_eq_flatMap, scope, hterm]
      rfl
    have hlocations : t.locations [id] = [] := by simp [locations, hterm]
    rw [if_neg hid, Unwinding.run, Part.map_some, hsubtree, hlocations]
    rfl

/-! ### Histories -/

/-- A graft in place that fails leaves the terminology as it was, and what comes later goes on as if it had
not been tried. -/
theorem runInPlace_of_error {log : List Event} {error : Error} {left : Terminology}
    (h : (⟨log, .error error⟩, left) ∈ t.graftInPlace p d registry) (later : List Change) :
    runInPlace (.graft p d registry :: later) t =
      (runInPlace later t).map (Prod.map (⟨log, .error error⟩ :: ·) id) := by
  obtain rfl := eq_of_graftInPlace_error h
  rw [runInPlace, Change.perform, Part.eq_some_iff.2 h, Part.map_some, Part.bind_some]
  rfl

/-- One change in place comes to an end and does what the change does. -/
theorem Coherent.exists_perform (h : t.Coherent) {change : Change} (hchange : change.Apart) :
    ∃ answer, change.perform t = Part.some (answer, t.after change) := by
  cases change with
  | graft p d registry =>
    rw [Change.perform, h.graftInPlace_eq hchange.1 hchange.2, Part.map_some]
    exact ⟨_, rfl⟩
  | regenerate id =>
    rw [Change.perform, h.regenerateInPlace_eq, Part.map_some]
    exact ⟨_, rfl⟩

/-- So do any number of them. -/
theorem Coherent.exists_runInPlace (h : t.Coherent) {changes : List Change}
    (hchanges : ∀ change ∈ changes, change.Apart) :
    ∃ answers, runInPlace changes t = Part.some (answers, changes.foldl Terminology.after t) := by
  induction changes generalizing t with
  | nil => exact ⟨[], rfl⟩
  | cons change rest ih =>
    obtain ⟨answer, hanswer⟩ := h.exists_perform (hchanges change List.mem_cons_self)
    obtain ⟨answers, hanswers⟩ :=
      ih (h.after change) fun other hother => hchanges other (List.mem_cons_of_mem _ hother)
    refine ⟨answer :: answers, ?_⟩
    rw [runInPlace, hanswer, Part.bind_some]
    show (runInPlace rest (t.after change)).map _ = _
    rw [hanswers, Part.map_some, List.foldl_cons]
    rfl

/-- A graft in place that fails leaves a reached terminology as it was, and whatever is done later gives
and leaves behind what it would have without this graft. It comes to an end, and fails when `graft` does,
for the same reason; otherwise it gives the same number, and leaves the new terminology behind. -/
theorem Reached.graft_inPlace (h : t.Reached) (p : Pointer) (d : Declaration)
    (registry : Option Registry) :
    (∀ log error left, (⟨log, .error error⟩, left) ∈ t.graftInPlace p d registry →
      left = t ∧
        ∀ later, runInPlace (.graft p d registry :: later) t =
          (runInPlace later t).map (Prod.map (⟨log, .error error⟩ :: ·) id)) ∧
      (d.Apart → (∀ r, registry = some r → r.Apart) →
        t.graftInPlace p d registry =
          Part.some (Prod.snd <$> t.graft p d registry, t.after (.graft p d registry))) := by
  refine ⟨fun log error left hfail => ?_, fun hd hregistry => h.coherent.graftInPlace_eq hd hregistry p⟩
  exact ⟨eq_of_graftInPlace_error hfail, runInPlace_of_error hfail⟩

namespace Sample

theorem apart_registry : Sample.registry.Apart := by
  simp [Registry.Apart, Sample.registry, declaration]
  decide

/-- Persons cannot get a role without a text, for a proxy leads there. The attempt leaves no trace: the
next graft gives the same number, eleven, as without it. -/
theorem graft_in_place_of_plainRole : built.Reached ∧
    plainRole.Apart ∧ role.Apart ∧ Sample.registry.Apart ∧
    (∃ log left, (⟨log, .error (.badPointer ⟨"roleText"⟩ (pointer ["role", "text"]))⟩, left) ∈
      built.graftInPlace (pointer ["person"]) plainRole (some Sample.registry) ∧ left = built) ∧
    (runInPlace [.graft (pointer ["person"]) plainRole (some Sample.registry),
        .graft (pointer ["person"]) role (some Sample.registry)] built).map
          (fun (answers, last) => (answers.map Logged.result, last)) =
      Part.some ([.error (.badPointer ⟨"roleText"⟩ (pointer ["role", "text"])), .ok (some 11)], grafted) := by
  have hplain : plainRole.Apart := Declaration.apart_mk_iff.2 ⟨List.nodup_nil, by rintro _ ⟨⟩⟩
  have hrole : role.Apart := by
    simp [role, declaration, Declaration.apart_mk_iff]
    decide
  have hregistry : ∀ r, some Sample.registry = some r → r.Apart := by
    rintro _ ⟨⟩
    exact apart_registry
  obtain ⟨hundone, hagrees⟩ :=
    Reached.graft_inPlace reached_built (pointer ["person"]) plainRole (some Sample.registry)
  obtain ⟨-, hlater⟩ := Reached.graft_inPlace reached_built (pointer ["person"]) role (some Sample.registry)
  have hfails : (built.graft (pointer ["person"]) plainRole (some Sample.registry)).result.map Prod.snd =
      .error (.badPointer ⟨"roleText"⟩ (pointer ["role", "text"])) := by decide +kernel
  have hnext : (built.graft (pointer ["person"]) role (some Sample.registry)).result.map Prod.snd =
      .ok 11 := by decide +kernel
  have hmem : (⟨(built.graft (pointer ["person"]) plainRole (some Sample.registry)).log,
      .error (.badPointer ⟨"roleText"⟩ (pointer ["role", "text"]))⟩,
        built.after (.graft (pointer ["person"]) plainRole (some Sample.registry))) ∈
      built.graftInPlace (pointer ["person"]) plainRole (some Sample.registry) := by
    rw [hagrees hplain hregistry, ← hfails]
    exact Part.mem_some _
  obtain ⟨hleft, hgoesOn⟩ := hundone _ _ _ hmem
  refine ⟨reached_built, hplain, hrole, apart_registry, ⟨_, _, hmem, hleft⟩, ?_⟩
  have hid : (some <$> Prod.snd <$> built.graft (pointer ["person"]) role (some Sample.registry)).result =
      .ok (some 11) := by
    rw [Logged.result_map, Logged.result_map, hnext]
    rfl
  rw [hgoesOn, runInPlace, Change.perform, hlater hrole hregistry]
  simp only [runInPlace, Part.map_some, Part.bind_some, Prod.map_apply, List.map_cons, List.map_nil, hid]
  rfl

end Sample

end Terminology

/-- Any draft that a session keeps can be grafted in place onto any terminology that it keeps. -/
theorem Workspace.Sound.graft_inPlace_eq {w : Workspace} (hw : w.Sound)
    {terminology draft : String} {t : Terminology} {d : Declaration} {registry : Option Registry}
    (ht : w.terminologies.get? terminology = some t) (hd : w.drafts.get? draft = some d)
    (hregistry : ∀ r, registry = some r → ∃ name, w.registries.get? name = some r) (p : Pointer) :
    t.graftInPlace p d registry =
      Part.some (Prod.snd <$> t.graft p d registry, t.after (.graft p d registry)) := by
  have hcoherent := (hw.reached terminology t ht).coherent
  have hapart := hw.drafts draft d hd
  have hregistry' : ∀ r, registry = some r → r.Apart := by
    intro r hr
    obtain ⟨name, hname⟩ := hregistry r hr
    exact hw.registries name r hname
  exact hcoherent.graftInPlace_eq hapart hregistry' p

end TermAtlas
