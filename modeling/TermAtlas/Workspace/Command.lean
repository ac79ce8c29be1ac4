import TermAtlas.Workspace.Basic

/-!
# Commands

Everything that can be done to a workspace is a command: keeping and changing drafts, declaring terms
in registries and changing them there, building terminologies, and grafting onto them. The reply to a
command is what it made or changed. `Workspace.run` carries out a list of commands, one after the
other, where those that fail change nothing.

Of several faults in a command the first one counts. The terminology that is worked on has to be
there first of all, and what is added is prepared before its place is looked up. The text of the
place is read before that in a registry, and after that in a terminology.
-/

namespace TermAtlas

/-- Something to be done to a workspace. -/
inductive Command where
  /-- Keeps a draft under a name. -/
  | keep (draft : String) (recipe : Recipe)
  /-- Gives a key of a draft, or of a descendant of it, a value. -/
  | set (draft : String) (path : List Name) (key : Setting.Key) (value : Setting.Value)
  /-- Takes a key of a draft, or of a descendant of it, away. -/
  | unset (draft : String) (path : List Name) (key : Setting.Key)
  /-- Adds a child to a draft, or to a descendant of it. -/
  | adopt (draft : String) (path : List Name) (child : Recipe)
  /-- Resolves a draft, or a descendant of it, against a registry. -/
  | resolve (draft : String) (path : List Name) (registry : Option String)
  /-- Declares a root term in a registry. -/
  | declare (registry : String) (recipe : Recipe)
  /-- Changes a declaration in a registry. -/
  | edit (registry : String) (address : Address) (values : List (Setting.Key × Setting.Value))
      (without : List Setting.Key) (child : Option Recipe)
  /-- Keeps a copy of a registry. -/
  | fork (registry target : String)
  /-- Builds a registry. -/
  | build (registry target : String)
  /-- Builds a declaration alone. -/
  | buildAlone (recipe : Recipe) (registry : Option String) (target : String)
  /-- Keeps a copy of a terminology. -/
  | copy (terminology target : String)
  /-- Builds a declaration below a term of a terminology. -/
  | graft (terminology : String) (address : Address) (recipe : Recipe) (registry : Option String)
  /-- Derives the paths below a node anew. -/
  | regenerate (terminology : String) (id : Nat)

/-- What comes of a command. -/
inductive Reply where
  | done
  | declaration (d : Declaration)
  /-- A changed declaration, and what the key held before. -/
  | changed (previous : Option Setting.Value) (d : Declaration)
  | registry (r : Registry)
  | terminology (t : Terminology)
  /-- A terminology with a new node. -/
  | grafted (t : Terminology) (id : Nat)

namespace Command

open Workspace

/-- Changes a declaration of a draft; the reply tells what `key` held before. -/
def changeDraft (draft : String) (path : List Name) (key : Setting.Key) (edit : Declaration.Edit) :
    Action Reply := do
  let d ← draftAt draft path
  replaceAt draft path (d.apply edit)
  pure (.changed (d.settings.get? key) (d.apply edit))

/-- A declaration in a registry after some changes. -/
def changeDeclared (name : String) (p : Pointer) (edits : List Declaration.Edit) :
    Action Reply := do
  let r ← registry name
  let changed ← Action.ofExcept (r.edit p edits)
  keepRegistry name changed
  let d ← Action.ofExcept (changed.lookup p)
  pure (.declaration d)

/-- The changes that an `edit` asks for: values, keys to take away, and a child, in this order. -/
def edits (values : List (Setting.Key × Setting.Value)) (without : List Setting.Key)
    (child : Option Declaration) : List Declaration.Edit :=
  values.map (fun (key, value) => .set key value) ++ without.map .unset ++
    (child.map Declaration.Edit.adopt).toList

/-- Carries out a command. -/
def perform : Command → Action Reply
  | keep draft recipe => do
    let d ← prepare recipe
    keepDraft draft d
    pure (.declaration d)
  | set draft path key value => changeDraft draft path key (.set key value)
  | unset draft path key => changeDraft draft path key (.unset key)
  | adopt draft path child => do
    let child ← prepare child
    let d ← draftAt draft path
    replaceAt draft path (d.adopt child)
    pure (.declaration (d.adopt child))
  | resolve draft path name => do
    let r ← registry? name
    let d ← draftAt draft path
    let resolved ← Action.ofLogged (d.resolve r)
    replaceAt draft path resolved
    pure (.declaration resolved)
  | declare name recipe => do
    let d ← prepare recipe
    let r ← registry name
    keepRegistry name (r.declare d)
    pure (.registry (r.declare d))
  | edit name address values without child => do
    let p ← Action.ofExcept address.read
    let child ← prepare? child
    changeDeclared name p (edits values without child)
  | fork name target => do
    let r ← registry name
    keepRegistry target r
    pure .done
  | build name target => do
    let r ← registry name
    let t ← Action.ofLogged r.build
    keepTerminology target t
    pure (.terminology t)
  | buildAlone recipe name target => do
    let d ← prepare recipe
    let r ← registry? name
    let t ← Action.ofLogged (d.build r)
    keepTerminology target t
    pure (.terminology t)
  | copy name target => do
    let t ← terminology name
    keepTerminology target t
    pure .done
  | graft name address recipe registryName => do
    let t ← terminology name
    let d ← prepare recipe
    let p ← Action.ofExcept address.read
    let r ← registry? registryName
    let (grown, id) ← Action.ofLogged (t.graft p d r)
    keepTerminology name grown
    pure (.grafted grown id)
  | regenerate name id => do
    let t ← terminology name
    let t ← Action.ofLogged (t.regenerateLogged id)
    keepTerminology name t
    pure (.terminology t)

end Command

/-- The workspace after some commands, where those that fail change nothing. -/
def Workspace.run (commands : List Command) (w : Workspace) : Workspace :=
  commands.foldl (fun w command => (command.perform.perform w).2.2) w

end TermAtlas
