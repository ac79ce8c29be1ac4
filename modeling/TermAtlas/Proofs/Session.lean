import TermAtlas.Proofs.Apart
import TermAtlas.Proofs.Reached
import TermAtlas.Workspace.Command

/-!
# Sessions

A session is a list of commands that are carried out in a workspace. Every terminology that a session
keeps is a reached one, and in all its drafts and registries the names of siblings are apart, so that what
is proved of those holds at every point of every session.

The same goes for whatever is hereditary and true of new declarations. What is true of a declaration may depend
on the names that have been given to identities so far; as a session goes on, more names are given, and none is
taken back.

## What is proved

* `Action.EnsuresFrom.bind` — what actions ensure one after the other.
* `ensures_prepare`, `Command.ensures_perform` — recipes and commands keep what lasts.
* `Workspace.Keeps.run` — so does any list of commands, those that fail included.
* `Workspace.sound_run` — every session is sound.
-/

namespace TermAtlas

/-- Whenever `x` succeeds in a workspace with `P`, names that have been given then go on from those before;
with them there is `P` in the workspace that `x` leaves, and `Q` of its result. -/
def Action.EnsuresFrom {α : Type} (P : List Name → Workspace → Prop) (given : List Name) (x : Action α)
    (Q : List Name → α → Prop) : Prop :=
  ∀ w log a w', P given w → x w = (log, .ok (a, w')) → ∃ later, given <+: later ∧ P later w' ∧ Q later a

namespace Action

variable {α β : Type} {P : List Name → Workspace → Prop} {given : List Name} {Q : List Name → α → Prop}
  {R : List Name → β → Prop}

theorem ensures_pure {a : α} (ha : Q given a) : EnsuresFrom P given (pure a) Q := by
  rintro w log _ _ hw ⟨⟩
  exact ⟨given, List.prefix_rfl, hw, ha⟩

theorem ensures_fail {e : Failure} : EnsuresFrom P given (fail e) Q := by
  rintro w log a w' - ⟨⟩

theorem ensures_workspace : EnsuresFrom P given workspace P := by
  rintro w log _ _ hw ⟨⟩
  exact ⟨given, List.prefix_rfl, hw, hw⟩

theorem ensures_change {f : Workspace → Workspace} {later : List Name} {Q : List Name → Unit → Prop}
    (hlater : given <+: later) (hf : ∀ w, P given w → P later (f w)) (hQ : Q later ()) :
    EnsuresFrom P given (change f) Q := by
  rintro w log _ _ hw ⟨⟩
  exact ⟨later, hlater, hf w hw, hQ⟩

/-- A computation that needs no workspace ensures what is known of its result. -/
theorem ensures_ofLogged {x : Logged α} (h : ∀ a, x.result = .ok a → Q given a) :
    EnsuresFrom P given (ofLogged x) Q := by
  intro w log a w' hw hx
  cases hresult : x.result with
  | error e =>
    rw [ofLogged, hresult] at hx
    cases hx
  | ok b =>
    rw [ofLogged, hresult] at hx
    cases hx
    exact ⟨given, List.prefix_rfl, hw, h _ hresult⟩

theorem ensures_ofOption {e : Failure} {x : Option α} (h : ∀ a, x = some a → Q given a) :
    EnsuresFrom P given (ofOption e x) Q := by
  cases x with
  | none => exact ensures_fail
  | some a => exact ensures_pure (h a rfl)

/-- A second action may rely on what the first one ensures, with the names that have been given then. -/
theorem EnsuresFrom.bind {x : Action α} {f : α → Action β} (hx : EnsuresFrom P given x Q)
    (hf : ∀ later a, given <+: later → Q later a → EnsuresFrom P later (f a) R) :
    EnsuresFrom P given (x >>= f) R := by
  intro w log b w'' hw h
  rcases hxw : x w with ⟨first, result⟩
  cases result with
  | error e =>
    simp only [Bind.bind, hxw] at h
    cases h
  | ok pair =>
    obtain ⟨a, w'⟩ := pair
    obtain ⟨later, hlater, hw', ha⟩ := hx w first a w' hw hxw
    rcases hfw : f a w' with ⟨more, last⟩
    simp only [Bind.bind, hxw, hfw] at h
    obtain ⟨-, rfl⟩ := Prod.mk.inj h
    obtain ⟨last, hlast, hw'', hb⟩ := hf later a hlater ha w' more b w'' hw' hfw
    exact ⟨last, hlater.trans hlast, hw'', hb⟩

/-- Performing an action keeps `P`, also if the action fails. -/
theorem EnsuresFrom.perform {x : Action α} (hx : EnsuresFrom P given x Q) {w : Workspace} (hw : P given w) :
    ∃ later, given <+: later ∧ P later (x.perform w).2.2 := by
  rw [Action.perform]
  split
  · next log a w' h =>
    obtain ⟨later, hlater, hw', -⟩ := hx w log a w' hw h
    exact ⟨later, hlater, hw'⟩
  · exact ⟨given, List.prefix_rfl, hw⟩

end Action

namespace Workspace

/-- All terminologies that are kept are reached, and the names of siblings are apart in all declarations
that are kept. -/
structure Sound (w : Workspace) : Prop where
  /-- Terminologies are reached. -/
  reached : ∀ name t, w.terminologies.get? name = some t → t.Reached
  /-- Names are apart in drafts. -/
  drafts : ∀ name d, w.drafts.get? name = some d → d.Apart
  /-- Names are apart in registries. -/
  registries : ∀ name r, w.registries.get? name = some r → r.Apart

/-- What a session keeps of its declarations, given the names that identities have been given so far, in the
order of their numbers. -/
structure Lasting (H : List Name → Declaration → Prop) : Prop where
  /-- Edits and imports keep it. -/
  hereditary : ∀ given, Hereditary (H given)
  /-- It stays true when more names are given. -/
  mono : ∀ given later d, given <+: later → H given d → H later d
  /-- It is true of a new declaration when its name has been given to its identity. -/
  new : ∀ given name, H (given ++ [name]) (Declaration.new ⟨given.length⟩ name)

/-- All terminologies that are kept are reached, `H` is true of all declarations that are kept, and a name has
been given to every identity but the unused ones. -/
structure Keeps (H : List Name → Declaration → Prop) (given : List Name) (w : Workspace) : Prop where
  /-- The next new identity has no name yet. -/
  supply : w.supply = given.length
  /-- Terminologies are reached. -/
  reached : ∀ name t, w.terminologies.get? name = some t → t.Reached
  /-- It is true of drafts. -/
  drafts : ∀ name d, w.drafts.get? name = some d → H given d
  /-- It is true of what is declared in registries. -/
  registries : ∀ name r, w.registries.get? name = some r → ∀ d ∈ r.roots, H given d

/-- What holds of all values of a map holds of them when a value of which it holds is added. -/
theorem forall_get?_insert {α : Type} {P : α → Prop} {map : OrderedMap String α}
    (h : ∀ name a, map.get? name = some a → P a) (key : String) {value : α} (hvalue : P value) :
    ∀ name a, (map.insert key value).get? name = some a → P a := by
  intro name a ha
  rw [OrderedMap.get?_insert] at ha
  split at ha
  · exact Option.some.inj ha ▸ hvalue
  · exact h name a ha

open TermAtlas.Action

variable {H : List Name → Declaration → Prop} {given : List Name}

/-! ### What is done to drafts and registries -/

theorem ensures_registry (name : String) :
    EnsuresFrom (Keeps H) given (registry name) fun given r => ∀ d ∈ r.roots, H given d := by
  refine ensures_workspace.bind fun later w _ hw => ensures_pure ?_
  cases hr : w.registries.get? name with
  | none =>
    rintro d ⟨⟩
  | some r => exact hw.registries name r hr

theorem ensures_optionalRegistry (name : Option String) :
    EnsuresFrom (Keeps H) given ( registry? name) fun given found =>
      ∀ r, found = some r → ∀ d ∈ r.roots, H given d := by
  cases name with
  | none => exact ensures_pure nofun
  | some name =>
    refine (ensures_registry name).bind fun later r _ hr => ensures_pure ?_
    rintro _ ⟨⟩
    exact hr

theorem ensures_keepRegistry (name : String) {r : Registry} (hr : ∀ d ∈ r.roots, H given d) :
    EnsuresFrom (Keeps H) given (keepRegistry name r) fun _ _ => True := by
  refine ensures_change List.prefix_rfl (fun w hw => ?_) trivial
  exact ⟨hw.supply, hw.reached, hw.drafts, forall_get?_insert hw.registries name hr⟩

theorem ensures_draft (name : String) : EnsuresFrom (Keeps H) given (draft name) H :=
  ensures_workspace.bind fun _ _ _ hw => ensures_ofOption fun d hd => hw.drafts name d hd

theorem ensures_keepDraft (name : String) {d : Declaration} (hd : H given d) :
    EnsuresFrom (Keeps H) given (keepDraft name d) fun _ _ => True := by
  refine ensures_change List.prefix_rfl (fun w hw => ?_) trivial
  exact ⟨hw.supply, hw.reached, forall_get?_insert hw.drafts name hd, hw.registries⟩

theorem ensures_ofDescent {α : Type} {x : Except Name α} {Q : List Name → α → Prop}
    (h : ∀ a, x = .ok a → Q given a) : EnsuresFrom (Keeps H) given (ofDescent x) Q := by
  cases x with
  | error missing => exact ensures_fail
  | ok a => exact ensures_pure (h a rfl)

theorem ensures_draftAt (hH : Lasting H) (name : String) (path : List Name) :
    EnsuresFrom (Keeps H) given (draftAt name path) H :=
  (ensures_draft name).bind fun later _ _ hd =>
    ensures_ofDescent fun _ hdescend => (hH.hereditary later).descend hd hdescend

theorem ensures_replaceAt (hH : Lasting H) (name : String) (path : List Name) {replacement : Declaration}
    (hreplacement : H given replacement) :
    EnsuresFrom (Keeps H) given (replaceAt name path replacement) fun _ _ => True := by
  refine (ensures_draft name).bind fun later d hlater hd => ?_
  have hreplacement' := hH.mono _ _ _ hlater hreplacement
  refine EnsuresFrom.bind (Q := H) (ensures_ofDescent fun changed hchanged => ?_) ?_
  · exact (hH.hereditary later).changeAt hd (fun _ _ => hreplacement') hchanged
  · exact fun _ _ _ hchanged => ensures_keepDraft name hchanged

/-- A new declaration is given a name. -/
theorem ensures_newDeclaration (hH : Lasting H) (name : Name) :
    EnsuresFrom (Keeps H) given (newDeclaration name) H := by
  refine ensures_workspace.bind fun given w _ hw => ?_
  have hnew : H (given ++ [name]) (Declaration.new ⟨w.supply⟩ name) := hw.supply ▸ hH.new given name
  have hlater : given <+: given ++ [name] := List.prefix_append _ _
  refine EnsuresFrom.bind (Q := fun later _ => H later (Declaration.new ⟨w.supply⟩ name))
    (ensures_change hlater (fun other hother => ?_) hnew) ?_
  · refine ⟨by simp [hother.supply], hother.reached, fun key d hd => ?_, fun key r hr d hd => ?_⟩
    · exact hH.mono _ _ _ hlater (hother.drafts key d hd)
    · exact hH.mono _ _ _ hlater (hother.registries key r hr d hd)
  · exact fun _ _ _ hd => ensures_pure hd

theorem ensures_start (hH : Lasting H) (source : Source) : EnsuresFrom (Keeps H) given (start source) H := by
  cases source with
  | new name => exact ensures_newDeclaration hH name
  | draft name => exact ensures_draft name
  | declared name address =>
    refine (ensures_registry name).bind fun given r _ hr => EnsuresFrom.bind (Q := fun _ _ => True) ?_ ?_
    · exact ensures_ofLogged fun _ _ => trivial
    · intro later p hlater _
      have hr' : ∀ d ∈ r.roots, H later d := fun d hd => hH.mono _ _ _ hlater (hr d hd)
      exact ensures_ofLogged fun _ hlookup => (hH.hereditary later).lookup hr' hlookup

mutual

theorem ensures_prepare (hH : Lasting H) {given : List Name} (recipe : Recipe) :
    EnsuresFrom (Keeps H) given (prepare recipe) H := by
  cases recipe with
  | mk source calls =>
    rw [prepare]
    exact (ensures_start hH source).bind fun _ _ _ hd => ensures_performCalls hH calls hd

theorem ensures_performCall (hH : Lasting H) {given : List Name} (call : Call) {d : Declaration}
    (hd : H given d) : EnsuresFrom (Keeps H) given (performCall call d) H := by
  cases call with
  | set key value =>
    rw [performCall]
    exact ensures_pure ((hH.hereditary given).settings hd _)
  | point key address =>
    rw [performCall]
    refine EnsuresFrom.bind (Q := fun _ _ => True) (ensures_ofLogged fun _ _ => trivial) ?_
    intro later p hlater _
    exact ensures_pure ((hH.hereditary later).settings (hH.mono _ _ _ hlater hd) _)
  | adopt child =>
    rw [performCall]
    refine (ensures_prepare hH child).bind fun later child hlater hchild => ensures_pure ?_
    exact (hH.hereditary later).adopt (hH.mono _ _ _ hlater hd) hchild

theorem ensures_performCalls (hH : Lasting H) {given : List Name} (calls : List Call) {d : Declaration}
    (hd : H given d) : EnsuresFrom (Keeps H) given (performCalls calls d) H := by
  cases calls with
  | nil =>
    rw [performCalls]
    exact ensures_pure hd
  | cons call rest =>
    rw [performCalls]
    exact (ensures_performCall hH call hd).bind fun _ _ _ hd' => ensures_performCalls hH rest hd'

end

theorem ensures_prepare? (hH : Lasting H) (recipe : Option Recipe) :
    EnsuresFrom (Keeps H) given (prepare? recipe) fun given found => ∀ d, found = some d → H given d := by
  cases recipe with
  | none => exact ensures_pure nofun
  | some recipe =>
    refine (ensures_prepare hH recipe).bind fun _ d _ hd => ensures_pure ?_
    rintro _ ⟨⟩
    exact hd

/-! ### What is done to terminologies -/

theorem ensures_terminology (name : String) :
    EnsuresFrom (Keeps H) given (terminology name) fun _ t => t.Reached :=
  ensures_workspace.bind fun _ _ _ hw => ensures_ofOption fun t ht => hw.reached name t ht

theorem ensures_keepTerminology (name : String) {t : Terminology} (h : t.Reached) :
    EnsuresFrom (Keeps H) given (keepTerminology name t) fun _ _ => True := by
  refine ensures_change List.prefix_rfl (fun w hw => ?_) trivial
  exact ⟨hw.supply, forall_get?_insert hw.reached name h, hw.drafts, hw.registries⟩

end Workspace

open TermAtlas.Action TermAtlas.Workspace

namespace Command

variable {H : List Name → Declaration → Prop} {given : List Name}

/-- A change to a draft keeps what lasts. -/
theorem ensures_changeDraft (hH : Lasting H) (draft : String) (path : List Name) (key : Setting.Key)
    {edit : Declaration.Edit} (hedit : ∀ child, edit ≠ .adopt child) :
    EnsuresFrom (Keeps H) given (changeDraft draft path key edit) fun _ _ => True := by
  refine (ensures_draftAt hH draft path).bind fun later d _ hd => ?_
  have hd' : H later (d.apply edit) :=
    (hH.hereditary later).apply hd fun child hchild => absurd hchild (hedit child)
  exact (ensures_replaceAt hH draft path hd').bind fun _ _ _ _ => ensures_pure trivial

/-- So do changes in a registry. -/
theorem ensures_changeDeclared (hH : Lasting H) (name : String) (p : Pointer) {edits : List Declaration.Edit}
    (hedits : ∀ child, .adopt child ∈ edits → H given child) :
    EnsuresFrom (Keeps H) given (changeDeclared name p edits) fun _ _ => True := by
  refine (ensures_registry name).bind fun later r hlater hr => ?_
  have hedits' : ∀ child, .adopt child ∈ edits → H later child :=
    fun child hchild => hH.mono _ _ _ hlater (hedits child hchild)
  refine EnsuresFrom.bind (Q := fun given r => ∀ d ∈ r.roots, H given d) ?_ fun _ changed _ hchanged => ?_
  · exact ensures_ofLogged fun _ hresult => (hH.hereditary later).edit hr hedits' hresult
  · refine (ensures_keepRegistry name hchanged).bind fun _ _ _ _ => ?_
    exact EnsuresFrom.bind (Q := fun _ _ => True) (ensures_ofLogged fun _ _ => trivial)
      fun _ _ _ _ => ensures_pure trivial

/-- The one child that an `edit` may add is the one given. -/
theorem eq_some_of_adopt_mem_edits {values : List (Setting.Key × Setting.Value)}
    {without : List Setting.Key} {found : Option Declaration} {child : Declaration}
    (h : .adopt child ∈ edits values without found) : found = some child := by
  cases found with
  | none => simp [edits] at h
  | some other =>
    have heq : child = other := by simpa [edits] using h
    rw [heq]

/-- Every command keeps what lasts. -/
theorem ensures_perform (hH : Lasting H) (command : Command) :
    EnsuresFrom (Keeps H) given command.perform fun _ _ => True := by
  have hread : ∀ {α : Type} {given : List Name} (x : Except Error α),
      EnsuresFrom (Keeps H) given (ofExcept x) fun _ _ => True :=
    fun x => ensures_ofLogged fun _ _ => trivial
  cases command with
  | keep draft recipe =>
    exact (ensures_prepare hH recipe).bind fun _ _ _ hd =>
      (ensures_keepDraft draft hd).bind fun _ _ _ _ => ensures_pure trivial
  | set draft path key value => exact ensures_changeDraft hH draft path key nofun
  | unset draft path key => exact ensures_changeDraft hH draft path key nofun
  | adopt draft path child =>
    refine (ensures_prepare hH child).bind fun _ child _ hchild => ?_
    refine (ensures_draftAt hH draft path).bind fun later d hlater hd => ?_
    have hadopt := (hH.hereditary later).adopt hd (hH.mono _ _ _ hlater hchild)
    exact (ensures_replaceAt hH draft path hadopt).bind fun _ _ _ _ => ensures_pure trivial
  | resolve draft path name =>
    refine (ensures_optionalRegistry name).bind fun given r _ hr => ?_
    refine (ensures_draftAt hH draft path).bind fun later d hlater hd => ?_
    refine EnsuresFrom.bind (Q := H) (ensures_ofLogged ?_) fun _ resolved _ hresolved => ?_
    · intro resolved hresolve
      have hr' : ∀ found, r = some found → ∀ d ∈ found.roots, H later d :=
        fun found hfound d hd => hH.mono _ _ _ hlater (hr found hfound d hd)
      exact (hH.hereditary later).resolve hd hr' hresolve
    · exact (ensures_replaceAt hH draft path hresolved).bind fun _ _ _ _ => ensures_pure trivial
  | declare name recipe =>
    refine (ensures_prepare hH recipe).bind fun _ d _ hd => ?_
    refine (ensures_registry name).bind fun later r hlater hr => ?_
    have hdeclare := Registry.forall_mem_declare hr (hH.mono _ _ _ hlater hd)
    exact (ensures_keepRegistry name hdeclare).bind fun _ _ _ _ => ensures_pure trivial
  | edit name address values without child =>
    refine (hread _).bind fun _ p _ _ => (ensures_prepare? hH child).bind fun _ found _ hfound => ?_
    exact ensures_changeDeclared hH name p fun child hchild =>
      hfound child (eq_some_of_adopt_mem_edits hchild)
  | fork name target =>
    exact (ensures_registry name).bind fun _ _ _ hr =>
      (ensures_keepRegistry target hr).bind fun _ _ _ _ => ensures_pure trivial
  | build name target =>
    refine (ensures_registry name).bind fun _ r _ _ => ?_
    refine EnsuresFrom.bind (Q := fun _ t => t.Reached) (ensures_ofLogged ?_) fun _ t _ ht => ?_
    · exact fun _ ht => Terminology.Reached.built ht
    · exact (ensures_keepTerminology target ht).bind fun _ _ _ _ => ensures_pure trivial
  | buildAlone recipe name target =>
    refine (ensures_prepare hH recipe).bind fun _ d _ _ => ?_
    refine (ensures_optionalRegistry name).bind fun _ r _ _ => ?_
    refine EnsuresFrom.bind (Q := fun _ t => t.Reached) (ensures_ofLogged ?_) fun _ t _ ht => ?_
    · exact fun _ ht => Terminology.Reached.builtAlone ht
    · exact (ensures_keepTerminology target ht).bind fun _ _ _ _ => ensures_pure trivial
  | copy name target =>
    exact (ensures_terminology name).bind fun _ t _ ht =>
      (ensures_keepTerminology target ht).bind fun _ _ _ _ => ensures_pure trivial
  | graft name address recipe registryName =>
    refine (ensures_terminology name).bind fun _ t _ ht => (ensures_prepare hH recipe).bind fun _ d _ _ => ?_
    refine (hread _).bind fun _ p _ _ => (ensures_optionalRegistry registryName).bind fun _ r _ _ => ?_
    refine EnsuresFrom.bind (Q := fun _ pair => pair.1.Reached) (ensures_ofLogged ?_) ?_
    · rintro ⟨grown, id⟩ hgraft
      have hafter : t.after (.graft p d r) = grown := by rw [Terminology.after, hgraft]
      exact hafter ▸ ht.changed (.graft p d r)
    · rintro _ ⟨grown, id⟩ _ hgrown
      exact (ensures_keepTerminology name hgrown).bind fun _ _ _ _ => ensures_pure trivial
  | regenerate name id =>
    refine (ensures_terminology name).bind fun _ t _ ht => ?_
    refine EnsuresFrom.bind (Q := fun _ t => t.Reached) (ensures_ofLogged ?_) fun _ t' _ ht' => ?_
    · rintro t' ⟨⟩
      exact ht.changed (.regenerate id)
    · exact (ensures_keepTerminology name ht').bind fun _ _ _ _ => ensures_pure trivial

end Command

namespace Workspace

variable {H : List Name → Declaration → Prop} {given : List Name} {w : Workspace}

/-- Any list of commands keeps what lasts, the commands that fail included. -/
theorem Keeps.run (hH : Lasting H) (hw : Keeps H given w) (commands : List Command) :
    ∃ later, given <+: later ∧ Keeps H later (w.run commands) := by
  induction commands generalizing given w with
  | nil => exact ⟨given, List.prefix_rfl, hw⟩
  | cons command rest ih =>
    obtain ⟨middle, hmiddle, hw'⟩ := (command.ensures_perform hH).perform hw
    obtain ⟨later, hlater, hrun⟩ := ih hw'
    rw [Workspace.run, List.foldl_cons]
    exact ⟨later, hmiddle.trans hlater, hrun⟩

/-- In the beginning nothing is kept, and no name has been given. -/
theorem keeps_default : Keeps H [] default := by
  refine ⟨rfl, fun name t ht => ?_, fun name d hd => ?_, fun name r hr => ?_⟩
  · cases ht
  · cases hd
  · cases hr

/-- Names stay apart, whatever names are given. -/
theorem lasting_apart : Lasting fun _ => Declaration.Apart where
  hereditary _ := Declaration.hereditary_apart
  mono _ _ _ _ hd := hd
  new _ _ := .intro List.nodup_nil (by rintro _ ⟨⟩)

/-- Any list of commands keeps a workspace sound, the commands that fail included. -/
theorem Sound.run (hw : w.Sound) (commands : List Command) : (w.run commands).Sound := by
  have hkeeps : Keeps (fun _ => Declaration.Apart) (List.replicate w.supply ⟨""⟩) w :=
    ⟨by rw [List.length_replicate], hw.reached, hw.drafts, hw.registries⟩
  obtain ⟨later, -, hrun⟩ := hkeeps.run lasting_apart commands
  exact ⟨hrun.reached, hrun.drafts, hrun.registries⟩

/-- At every point of a session the workspace is sound: in the beginning it is empty. -/
theorem sound_run (commands : List Command) : ((default : Workspace).run commands).Sound := by
  refine Sound.run ⟨fun name t ht => ?_, fun name d hd => ?_, fun name r hr => ?_⟩ commands
  · cases ht
  · cases hd
  · cases hr

end Workspace

end TermAtlas
