import TermAtlas.Office.Command
import TermAtlas.Proofs.Editing
import TermAtlas.Proofs.Filing

/-!
# Sessions in an office

A command that is carried out in an office does what it does in a workspace: it fails for the same reason, and
otherwise the folders and cabinets that are kept then hold the drafts and registries that are kept in the
workspace. So does any list of commands. What is more, everything in the office stays under its own name.

## What is proved

* `Errand.Agrees.bind` — what agrees does so one after the other.
* `Office.agrees_prepare`, `Office.agrees_perform` — recipes and commands agree.
* `Office.Holds.run` — whatever is done in an office, it holds the workspace where the same is done.
-/

namespace TermAtlas

namespace Action

variable {α β γ : Type}

/-- It does not matter how a sequence of actions is bracketed. -/
theorem bind_assoc (x : Action α) (f : α → Action β) (g : β → Action γ) :
    (x >>= f) >>= g = x >>= fun a => f a >>= g := by
  funext w
  rcases hx : x w with ⟨log, result⟩
  cases result with
  | error e => simp [Bind.bind, hx]
  | ok pair =>
    obtain ⟨a, w'⟩ := pair
    rcases hf : f a w' with ⟨more, result'⟩
    cases result' <;> simp [Bind.bind, hx, hf, List.append_assoc]

end Action

/-- `o.Holds w`: the office keeps, under the same names, folders and cabinets that hold the drafts and registries
of the workspace, and the same terminologies. -/
structure Office.Holds (o : Office) (w : Workspace) : Prop where
  /-- The next new identity is the same. -/
  supply : w.supply = o.supply
  /-- Drafts are held by folders. -/
  drafts : ∀ name, Option.Rel Folder.Holds (o.drafts.get? name) (w.drafts.get? name)
  /-- Registries are held by cabinets. -/
  cabinets : ∀ name, Option.Rel Cabinet.Holds (o.cabinets.get? name) (w.registries.get? name)
  /-- Terminologies are the same. -/
  terminologies : w.terminologies = o.terminologies

/-- In an office that holds a workspace the errand fails when the action does, for the same reason, or both give
related results, and the office holds the workspace afterwards. -/
def Errand.Agrees {α β : Type} (R : α → β → Prop) (x : Errand α) (y : Action β) : Prop :=
  ∀ o w, o.Holds w → Concur (fun p q => R p.1 q.1 ∧ p.2.Holds q.2) (x.run o) (y w).2

namespace Errand

variable {α β γ κ : Type} {R : α → β → Prop} {Q : γ → κ → Prop} {x : Errand α} {y : Action β}

theorem agrees_pure {a : α} {b : β} (h : R a b) : Agrees R (pure a) (pure b) :=
  fun _ _ hw => .ok ⟨h, hw⟩

/-- Errands that go on in related ways after errands that agree agree. -/
theorem Agrees.bind (h : Agrees R x y) {f : α → Errand γ} {g : β → Action κ}
    (hnext : ∀ a b, R a b → Agrees Q (f a) (g b)) : Agrees Q (x >>= f) (y >>= g) := by
  intro o w hw
  have hfirst := h o w hw
  rw [StateT.run_bind]
  rcases hyw : y w with ⟨log, result⟩
  rw [hyw] at hfirst
  generalize x.run o = first at hfirst ⊢
  cases hfirst with
  | error e =>
    simp only [Bind.bind, hyw]
    exact .error e
  | @ok p q hpq =>
    obtain ⟨b, w'⟩ := q
    simp only [Bind.bind, hyw]
    exact hnext _ _ hpq.1 _ _ hpq.2

/-- In a workspace something may come afterwards, such as a reply. -/
theorem Agrees.bind_right (h : Agrees R x y) {g : β → Action κ} {Q : α → κ → Prop}
    (hnext : ∀ a b, R a b → Agrees Q (pure a) (g b)) : Agrees Q x (y >>= g) := by
  rw [← bind_pure x]
  exact h.bind hnext

theorem agrees_get : Agrees Office.Holds get Action.workspace := fun _ _ hw => .ok ⟨hw, hw⟩

theorem agrees_modify {f : Office → Office} {g : Workspace → Workspace}
    (h : ∀ o w, o.Holds w → (f o).Holds (g w)) :
    Agrees (fun _ _ => True) (modify f) (Action.change g) :=
  fun o w hw => .ok ⟨trivial, h o w hw⟩

theorem agrees_ofLogged {x : Except Error α} {y : Logged β} (h : Concur R x y.result) :
    Agrees R (ofExcept x) (Action.ofLogged y) := by
  intro o w hw
  rw [Action.ofLogged]
  generalize y.result = result at h ⊢
  cases h with
  | error e => exact .error _
  | ok hab => exact .ok ⟨hab, hw⟩

theorem agrees_ofExcept {x : Except Error α} {y : Except Error β} (h : Concur R x y) :
    Agrees R (ofExcept x) (Action.ofExcept y) :=
  agrees_ofLogged h

theorem agrees_ofDescent {x : Except Name α} {y : Except Name β} (h : Concur R x y) :
    Agrees R (ofDescent x) (Workspace.ofDescent y) := by
  intro o w hw
  cases h with
  | error missing => exact .error _
  | ok hab => exact .ok ⟨hab, hw⟩

theorem agrees_ofOption {e : Failure} {x : Option α} {y : Option β} (h : Option.Rel R x y) :
    Agrees R (ofOption e x) (Action.ofOption e y) := by
  intro o w hw
  cases h with
  | none => exact .error _
  | some hab => exact .ok ⟨hab, hw⟩

end Errand

namespace Office

open TermAtlas.Errand

variable {f : Folder} {d : Declaration} {c : Cabinet} {r : Registry} {α β : Type}

/-- What is related to something is there. -/
theorem exists_of_rel {R : α → β → Prop} {x : Option α} {y : Option β} (h : Option.Rel R x y) {a : α}
    (hx : x = some a) : ∃ b, y = some b ∧ R a b := by
  cases h with
  | none => cases hx
  | some hab => exact ⟨_, rfl, Option.some.inj hx ▸ hab⟩

/-- Values under the same names stay related when related ones are added. -/
theorem rel_get?_insert {R : α → β → Prop} {m : OrderedMap String α} {n : OrderedMap String β}
    (h : ∀ name, Option.Rel R (m.get? name) (n.get? name)) (key : String) {a : α} {b : β} (hab : R a b)
    (name : String) : Option.Rel R ((m.insert key a).get? name) ((n.insert key b).get? name) := by
  rw [OrderedMap.get?_insert, OrderedMap.get?_insert]
  split
  · exact .some hab
  · exact h name

/-! ### What is kept -/

theorem agrees_cabinet (name : String) :
    Agrees Cabinet.Holds (cabinet name) (Workspace.registry name) := by
  refine agrees_get.bind fun o w hw => agrees_pure ?_
  have hrel := hw.cabinets name
  generalize o.cabinets.get? name = found, w.registries.get? name = found' at hrel ⊢
  cases hrel with
  | none => exact Cabinet.holds_empty
  | some hc => exact hc

theorem agrees_cabinet? (name : Option String) :
    Agrees (Option.Rel Cabinet.Holds) (cabinet? name) <| Workspace.registry? name := by
  cases name with
  | none => exact agrees_pure .none
  | some name => exact (agrees_cabinet name).bind fun _ _ hc => agrees_pure (.some hc)

theorem agrees_keepCabinet (name : String) (hc : c.Holds r) :
    Agrees (fun _ _ => True) (keepCabinet name c) (Workspace.keepRegistry name r) :=
  agrees_modify fun _ _ hw => ⟨hw.supply, hw.drafts, rel_get?_insert hw.cabinets name hc, hw.terminologies⟩

theorem agrees_terminology (name : String) :
    Agrees Eq (terminology name) (Workspace.terminology name) := by
  refine agrees_get.bind fun o w hw => agrees_ofOption ?_
  rw [hw.terminologies]
  cases o.terminologies.get? name with
  | none => exact .none
  | some t => exact .some rfl

theorem agrees_keepTerminology (name : String) (t : Terminology) :
    Agrees (fun _ _ => True) (keepTerminology name t) (Workspace.keepTerminology name t) :=
  agrees_modify fun _ _ hw =>
    ⟨hw.supply, hw.drafts, hw.cabinets, congrArg (OrderedMap.insert · name t) hw.terminologies⟩

theorem agrees_draft (name : String) : Agrees Folder.Holds (draft name) (Workspace.draft name) :=
  agrees_get.bind fun _ _ hw => agrees_ofOption (hw.drafts name)

theorem agrees_keepDraft (name : String) (hf : f.Holds d) :
    Agrees (fun _ _ => True) (keepDraft name f) (Workspace.keepDraft name d) :=
  agrees_modify fun _ _ hw => ⟨hw.supply, rel_get?_insert hw.drafts name hf, hw.cabinets, hw.terminologies⟩

/-! ### What recipes give -/

theorem agrees_newFolder (name : Name) :
    Agrees Folder.Holds (newFolder name) (Workspace.newDeclaration name) := by
  refine agrees_get.bind fun o w hw => (agrees_modify fun o w hw => ?_).bind fun _ _ _ => agrees_pure ?_
  · exact ⟨congrArg (· + 1) hw.supply, hw.drafts, hw.cabinets, hw.terminologies⟩
  · rw [hw.supply]
    exact Folder.holds_new _ name

theorem agrees_start (source : Source) : Agrees Folder.Holds (start source) (Workspace.start source) := by
  cases source with
  | new name => exact agrees_newFolder name
  | draft name => exact agrees_draft name
  | declared name address =>
    refine (agrees_cabinet name).bind fun c r hc => ?_
    refine (agrees_ofExcept (.of_eq rfl)).bind ?_
    rintro p _ rfl
    exact agrees_ofExcept (hc.lookup p)

mutual

theorem agrees_prepare (recipe : Recipe) :
    Agrees Folder.Holds (prepare recipe) (Workspace.prepare recipe) := by
  cases recipe with
  | mk source calls =>
    rw [prepare, Workspace.prepare]
    exact (agrees_start source).bind fun _ _ hf => agrees_performCalls calls hf

theorem agrees_performCall (call : Call) {f : Folder} {d : Declaration} (hf : f.Holds d) :
    Agrees Folder.Holds (performCall call f) (Workspace.performCall call d) := by
  cases call with
  | set key value =>
    rw [performCall, Workspace.performCall]
    exact agrees_pure (hf.set key value)
  | point key address =>
    rw [performCall, Workspace.performCall]
    refine (agrees_ofExcept (.of_eq rfl)).bind ?_
    rintro p _ rfl
    exact agrees_pure (hf.set key _)
  | adopt child =>
    rw [performCall, Workspace.performCall]
    exact (agrees_prepare child).bind fun _ _ hchild => agrees_pure (hf.adopt hchild)

theorem agrees_performCalls (calls : List Call) {f : Folder} {d : Declaration} (hf : f.Holds d) :
    Agrees Folder.Holds (performCalls calls f) (Workspace.performCalls calls d) := by
  cases calls with
  | nil =>
    rw [performCalls, Workspace.performCalls]
    exact agrees_pure hf
  | cons call rest =>
    rw [performCalls, Workspace.performCalls]
    exact (agrees_performCall call hf).bind fun _ _ hf' => agrees_performCalls rest hf'

end

theorem agrees_prepare? (recipe : Option Recipe) :
    Agrees (Option.Rel Folder.Holds) (prepare? recipe) (Workspace.prepare? recipe) := by
  cases recipe with
  | none => exact agrees_pure .none
  | some recipe => exact (agrees_prepare recipe).bind fun _ _ hf => agrees_pure (.some hf)

/-! ### Commands -/

/-- In a workspace the draft is read twice, before and after the change is prepared; reading it once is the same. -/
theorem draftAt_replaceAt (name : String) (path : List Name) (change : Declaration → Logged Declaration)
    (reply : Declaration → Declaration → Reply) :
    (do
      let d ← Workspace.draftAt name path
      let changed ← Action.ofLogged (change d)
      Workspace.replaceAt name path changed
      pure (reply d changed)) =
    (do
      let root ← Workspace.draft name
      let d ← Workspace.ofDescent (root.descend path)
      let changed ← Action.ofLogged (change d)
      let root ← Workspace.ofDescent (root.changeAt (fun _ => changed) path)
      Workspace.keepDraft name root
      pure (reply d changed)) := by
  funext w
  simp only [Workspace.draftAt, Workspace.replaceAt, Workspace.draft, Action.bind_assoc]
  cases hroot : w.drafts.get? name with
  | none => simp [Action.workspace, Action.ofOption, Action.fail, Bind.bind, hroot]
  | some root =>
    cases hfound : root.descend path with
    | error missing =>
      simp [Action.workspace, Action.ofOption, Action.fail, Workspace.ofDescent, Bind.bind, pure, hroot, hfound]
    | ok d =>
      cases hchanged : (change d).result <;>
        simp [Action.workspace, Action.ofOption, Action.ofLogged, Workspace.ofDescent, Except.mapError, Except.map,
          Bind.bind, pure, hroot, hfound, hchanged]

/-- A change that keeps the name of what is found keeps everything under its name. -/
theorem agrees_changeDraft (name : String) (path : List Name) {change : Folder → Except Error Folder}
    (change' : Declaration → Logged Declaration) (reply : Declaration → Declaration → Reply)
    (hchange : ∀ f d, f.Holds d →
      Concur (fun f' d' => f'.Holds d' ∧ f'.name = f.name) (change f) (change' d).result) :
    Agrees (fun _ _ => True) (changeDraft name path change) (do
      let d ← Workspace.draftAt name path
      let changed ← Action.ofLogged (change' d)
      Workspace.replaceAt name path changed
      pure (reply d changed)) := by
  rw [draftAt_replaceAt]
  refine (agrees_draft name).bind fun root root' hroot => ?_
  refine (agrees_ofDescent (hroot.descend path).and_eq_ok).bind fun f d ⟨hf, hfound, _⟩ => ?_
  refine (agrees_ofLogged (hchange f d hf)).bind fun f' d' ⟨hf', hname⟩ => ?_
  refine (agrees_ofDescent (hroot.changeAt path fun g e hg _ => ⟨hf', ?_⟩)).bind fun _ _ hkept =>
    (agrees_keepDraft name hkept.1).bind_right fun _ _ _ => agrees_pure trivial
  -- what is put back is what was found, and so are their names
  rwa [Except.ok.inj (hfound.symm.trans hg)] at hname

/-- Changes to settings have a result, whatever they are. -/
theorem agrees_changeSettings (name : String) (path : List Name) (key : Setting.Key) {change : Folder → Folder}
    {edit : Declaration.Edit}
    (hchange : ∀ f d, f.Holds d → (change f).Holds (d.apply edit) ∧ (change f).name = f.name) :
    Agrees (fun _ _ => True) (changeDraft name path fun f => .ok (change f))
      (Command.changeDraft name path key edit) :=
  agrees_changeDraft name path (fun d => pure (d.apply edit))
    (fun d changed => .changed (d.settings.get? key) changed) fun f d hf => .ok (hchange f d hf)

theorem holds_edits (values : List (Setting.Key × Setting.Value)) (without : List Setting.Key)
    {child : Option Folder} {child' : Option Declaration} (h : Option.Rel Folder.Holds child child') :
    List.Forall₂ Folder.Edit.Holds (edits values without child) (Command.edits values without child') := by
  refine List.rel_append (List.rel_append ?_ ?_) ?_
  · rw [List.forall₂_map_left_iff, List.forall₂_map_right_iff, List.forall₂_same]
    exact fun entry _ => .set entry.1 entry.2
  · rw [List.forall₂_map_left_iff, List.forall₂_map_right_iff, List.forall₂_same]
    exact fun key _ => .unset key
  · cases h with
    | none => exact .nil
    | some hchild => exact .cons (.adopt hchild) .nil

/-- What folders and cabinets say is what is built. -/
theorem contents_eq {registry : Option Cabinet} {registry' : Option Registry}
    (h : Option.Rel Cabinet.Holds registry registry') : registry.map Cabinet.contents = registry' := by
  cases h with
  | none => rfl
  | some hc => exact congrArg some hc.contents_eq

/-- Commands agree. -/
theorem agrees_perform (command : Command) : Agrees (fun _ _ => True) (perform command) command.perform := by
  cases command with
  | keep draft recipe =>
    exact (agrees_prepare recipe).bind fun _ _ hf =>
      (agrees_keepDraft draft hf).bind_right fun _ _ _ => agrees_pure trivial
  | set draft path key value =>
    exact agrees_changeSettings draft path key fun f d hf => ⟨hf.set key value, f.name_withSettings _⟩
  | unset draft path key =>
    exact agrees_changeSettings draft path key fun f d hf => ⟨hf.unset key, f.name_withSettings _⟩
  | adopt draft path child =>
    refine (agrees_prepare child).bind fun child child' hchild => ?_
    exact agrees_changeDraft draft path (fun d => pure (d.adopt child'))
      (fun _ changed => .declaration changed) fun f d hf => .ok ⟨hf.adopt hchild, rfl⟩
  | resolve draft path registry =>
    refine (agrees_cabinet? registry).bind fun c r hc => ?_
    refine agrees_changeDraft draft path (fun d => d.resolve r)
      (fun _ changed => .declaration changed) fun f d hf => ?_
    exact (hf.resolve hc).and_eq_ok.imp fun f' d' ⟨hf', hresolve, _⟩ =>
      ⟨hf', (Folder.id_and_name_of_resolve hresolve).2⟩
  | declare name recipe =>
    refine (agrees_prepare recipe).bind fun f d hf => (agrees_cabinet name).bind fun c r hc => ?_
    exact (agrees_keepCabinet name (hc.declare hf)).bind_right fun _ _ _ => agrees_pure trivial
  | edit name address values without child =>
    refine (agrees_ofExcept (.of_eq rfl)).bind ?_
    rintro p _ rfl
    refine (agrees_prepare? child).bind fun child child' hchild => (agrees_cabinet name).bind fun c r hc => ?_
    have hedit := (hc.edit p (holds_edits values without hchild)).and_eq_ok
    refine (agrees_ofExcept hedit).bind fun c' r' ⟨hc', _, hedited⟩ => ?_
    refine (agrees_keepCabinet name hc').bind_right fun _ _ _ => ?_
    -- the look-up for the reply finds what was edited
    obtain ⟨d, hlookup⟩ := Registry.exists_lookup_of_edit hedited
    rw [hlookup]
    exact agrees_pure trivial
  | fork name target =>
    exact (agrees_cabinet name).bind fun _ _ hc =>
      (agrees_keepCabinet target hc).bind_right fun _ _ _ => agrees_pure trivial
  | build name target =>
    refine (agrees_cabinet name).bind fun c r hc => ?_
    rw [hc.contents_eq]
    refine (agrees_ofLogged (.of_eq rfl)).bind ?_
    rintro t _ rfl
    exact (agrees_keepTerminology target t).bind_right fun _ _ _ => agrees_pure trivial
  | buildAlone recipe name target =>
    refine (agrees_prepare recipe).bind fun f d hf => (agrees_cabinet? name).bind fun c r hc => ?_
    rw [hf.contents, contents_eq hc]
    refine (agrees_ofLogged (.of_eq rfl)).bind ?_
    rintro t _ rfl
    exact (agrees_keepTerminology target t).bind_right fun _ _ _ => agrees_pure trivial
  | copy name target =>
    refine (agrees_terminology name).bind ?_
    rintro t _ rfl
    exact (agrees_keepTerminology target t).bind_right fun _ _ _ => agrees_pure trivial
  | graft name address recipe registry =>
    refine (agrees_terminology name).bind ?_
    rintro t _ rfl
    refine (agrees_prepare recipe).bind fun f d hf => (agrees_ofExcept (.of_eq rfl)).bind ?_
    rintro p _ rfl
    refine (agrees_cabinet? registry).bind fun c r hc => ?_
    rw [hf.contents, contents_eq hc]
    refine (agrees_ofLogged (.of_eq rfl)).bind ?_
    rintro ⟨grown, id⟩ _ rfl
    exact (agrees_keepTerminology name grown).bind_right fun _ _ _ => agrees_pure trivial
  | regenerate name id =>
    refine (agrees_terminology name).bind ?_
    rintro t _ rfl
    refine (agrees_ofLogged (.of_eq rfl)).bind ?_
    rintro t _ rfl
    exact (agrees_keepTerminology name t).bind_right fun _ _ _ => agrees_pure trivial

/-- So does any list of commands: whatever is done in an office that holds a workspace, the office holds what comes of
it in the workspace. -/
theorem Holds.run {o : Office} {w : Workspace} (h : o.Holds w) (commands : List Command) :
    (o.run commands).Holds (w.run commands) := by
  induction commands generalizing o w with
  | nil => exact h
  | cons command rest ih =>
    rw [Office.run, Workspace.run, List.foldl_cons, List.foldl_cons]
    refine ih ?_
    have hconcur := agrees_perform command o w h
    rw [Office.after, Action.perform]
    rcases hw : command.perform w with ⟨log, result⟩
    rw [hw] at hconcur
    dsimp only at hconcur ⊢
    generalize (perform command).run o = first at hconcur ⊢
    cases hconcur with
    | error e => exact h
    | ok hboth => exact hboth.2

end Office

end TermAtlas
