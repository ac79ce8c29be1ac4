import TermAtlas.Terminology.Graft
import TermAtlas.Workspace.Recipe

/-!
# Workspaces

A workspace keeps what a user is working on under names of the user's choice: drafts of declarations,
registries, and built terminologies. It also knows which identities are still unused, so that every
declaration that is prepared anew is told apart from all others.

An `Action` uses a workspace and may change it; it records events and may fail. `Action.perform` runs
one: a failed action leaves the workspace as it was (`workspace_of_failure`).
-/

namespace TermAtlas

/-- What a user is working on. -/
structure Workspace where
  /-- The number of the next new identity. -/
  supply : Nat
  drafts : OrderedMap String Declaration
  registries : OrderedMap String Registry
  terminologies : OrderedMap String Terminology

instance : Inhabited Workspace := ⟨⟨0, ∅, ∅, ∅⟩⟩

/-- Why an action failed. -/
inductive Failure where
  /-- An operation on declarations or on a terminology has no result. -/
  | error (e : Error)
  /-- There is no draft under this name. -/
  | noDraft (draft : String)
  /-- There is no terminology under the name given. -/
  | noTerminology
  /-- A draft has no child of this name where there should be one. -/
  | noChild (name : Name)

/-- Something done with a workspace. -/
def Action (α : Type) : Type := Workspace → List Event × Except Failure (α × Workspace)

namespace Action

variable {α β : Type}

instance : Monad Action where
  pure a := fun w => ([], .ok (a, w))
  bind x f := fun w =>
    match x w with
    | (log, .error e) => (log, .error e)
    | (log, .ok (a, w')) =>
      let (more, result) := f a w'
      (log ++ more, result)

/-- Fails. -/
def fail (e : Failure) : Action α := fun _ => ([], .error e)

/-- The workspace. -/
def workspace : Action Workspace := fun w => ([], .ok (w, w))

/-- Changes the workspace. -/
def change (f : Workspace → Workspace) : Action Unit := fun w => ([], .ok ((), f w))

/-- Runs a computation that needs no workspace. -/
def ofLogged (x : Logged α) : Action α := fun w =>
  (x.log, (x.result.mapError Failure.error).map (·, w))

/-- Runs a computation that needs no workspace and records nothing. -/
def ofExcept (x : Except Error α) : Action α := ofLogged (Logged.ofExcept x)

/-- The result, or a failure if there is none. -/
def ofOption (e : Failure) : Option α → Action α
  | some a => pure a
  | none => fail e

/-- Performs an action on a workspace: its events, its result, and the workspace afterwards. -/
def perform (x : Action α) (w : Workspace) : List Event × Except Failure α × Workspace :=
  match x w with
  | (log, .ok (a, w')) => (log, .ok a, w')
  | (log, .error e) => (log, .error e, w)

/-- A failed action leaves the workspace as it was. -/
theorem workspace_of_failure {x : Action α} {w : Workspace} {e : Failure}
    (h : (x.perform w).2.1 = .error e) : (x.perform w).2.2 = w := by
  unfold perform at h ⊢
  split at h <;> simp_all

end Action

namespace Workspace

/-! ### Registries and terminologies -/

/-- The registry under a name, empty unless something was declared in it. -/
def registry (name : String) : Action Registry := do
  let w ← Action.workspace
  pure ((w.registries.get? name).getD Registry.empty)

/-- The registry under a name, if a name is given. -/
def registry? : Option String → Action (Option Registry)
  | none => pure none
  | some name => do
    let r ← registry name
    pure (some r)

/-- Keeps a registry under a name. -/
def keepRegistry (name : String) (r : Registry) : Action Unit :=
  Action.change fun w => { w with registries := w.registries.insert name r }

/-- The terminology under a name. -/
def terminology (name : String) : Action Terminology := do
  let w ← Action.workspace
  Action.ofOption .noTerminology (w.terminologies.get? name)

/-- Keeps a terminology under a name. -/
def keepTerminology (name : String) (t : Terminology) : Action Unit :=
  Action.change fun w => { w with terminologies := w.terminologies.insert name t }

/-! ### Drafts -/

/-- The draft under a name. -/
def draft (name : String) : Action Declaration := do
  let w ← Action.workspace
  Action.ofOption (.noDraft name) (w.drafts.get? name)

/-- Keeps a draft under a name. -/
def keepDraft (name : String) (d : Declaration) : Action Unit :=
  Action.change fun w => { w with drafts := w.drafts.insert name d }

/-- A result that depends on where a list of names leads. -/
def ofDescent {α : Type} : Except Name α → Action α
  | .ok a => pure a
  | .error missing => Action.fail (.noChild missing)

/-- The descendant of a draft along a list of names. -/
def draftAt (name : String) (path : List Name) : Action Declaration := do
  let d ← draft name
  ofDescent (d.descend path)

/-- The declaration at an address that starts below the descendant of a draft along a list of names.
An address that cannot be read is refused before the names are followed. -/
def descendantAt (name : String) (path : List Name) (address : Address) :
    Action (Option Declaration) := do
  let p ← Action.ofExcept address.read
  let d ← draftAt name path
  pure (d.descendant? p)

/-- Puts a declaration in the place of the descendant of a draft along a list of names. -/
def replaceAt (name : String) (path : List Name) (replacement : Declaration) : Action Unit := do
  let d ← draft name
  let changed ← ofDescent (d.changeAt (fun _ => replacement) path)
  keepDraft name changed

/-! ### Preparing declarations -/

/-- A new declaration. -/
def newDeclaration (name : Name) : Action Declaration := do
  let w ← Action.workspace
  Action.change fun w => { w with supply := w.supply + 1 }
  pure (Declaration.new ⟨w.supply⟩ name)

/-- What a recipe starts from. -/
def start : Source → Action Declaration
  | .new name => newDeclaration name
  | .draft name => draft name
  | .declared name address => do
    let r ← registry name
    let p ← Action.ofExcept address.read
    Action.ofExcept (r.lookup p)

mutual

/-- The declaration that a recipe gives. -/
def prepare : Recipe → Action Declaration
  | .mk source calls => do
    let d ← start source
    performCalls calls d

/-- A declaration after one call. -/
def performCall : Call → Declaration → Action Declaration
  | .set key value, d => pure (d.set key value)
  | .point key address, d => do
    let p ← Action.ofExcept address.read
    pure (d.set key (.pointer p))
  | .adopt child, d => do
    let child ← prepare child
    pure (d.adopt child)

/-- A declaration after some calls. -/
def performCalls : List Call → Declaration → Action Declaration
  | [], d => pure d
  | call :: rest, d => do
    let d ← performCall call d
    performCalls rest d

end

/-- The declaration that a recipe gives, if there is a recipe. -/
def prepare? : Option Recipe → Action (Option Declaration)
  | none => pure none
  | some recipe => do
    let d ← prepare recipe
    pure (some d)

end Workspace

end TermAtlas
