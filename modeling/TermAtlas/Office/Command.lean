import TermAtlas.Office.Reference
import TermAtlas.Workspace.Command

/-!
# Offices

An office is a workspace where drafts and registries are kept as folders and cabinets. The same commands can
be carried out in an office, with recipes that start from the same sources. What is built or grafted is what
a folder or cabinet says.

An `Errand` uses an office and may change it, or fail. `Office.run` carries out a list of commands, one after
the other, where those that fail change nothing.
-/

namespace TermAtlas

/-- What a user is working on, with children and roots under keys. -/
structure Office where
  /-- The number of the next new identity. -/
  supply : Nat
  drafts : OrderedMap String Folder
  cabinets : OrderedMap String Cabinet
  terminologies : OrderedMap String Terminology

instance : Inhabited Office := ⟨⟨0, ∅, ∅, ∅⟩⟩

/-- Something done with an office. -/
abbrev Errand : Type → Type := StateT Office (Except Failure)

namespace Errand

variable {α : Type}

/-- A result that needs no office. -/
def ofExcept (x : Except Error α) : Errand α := liftM (x.mapError Failure.error)

/-- The result, or a failure if there is none. -/
def ofOption (e : Failure) : Option α → Errand α
  | some a => pure a
  | none => throw e

/-- A result that depends on where a list of keys leads. -/
def ofDescent (x : Except Name α) : Errand α := liftM (x.mapError Failure.noChild)

end Errand

namespace Office

/-! ### Cabinets and terminologies -/

/-- The cabinet under a name, empty unless something was declared in it. -/
def cabinet (name : String) : Errand Cabinet := do
  let o ← get
  pure ((o.cabinets.get? name).getD Cabinet.empty)

/-- The cabinet under a name, if a name is given. -/
def cabinet? : Option String → Errand (Option Cabinet)
  | none => pure none
  | some name => do
    let c ← cabinet name
    pure (some c)

/-- Keeps a cabinet under a name. -/
def keepCabinet (name : String) (c : Cabinet) : Errand Unit :=
  modify fun o => { o with cabinets := o.cabinets.insert name c }

/-- The terminology under a name. -/
def terminology (name : String) : Errand Terminology := do
  let o ← get
  Errand.ofOption .noTerminology (o.terminologies.get? name)

/-- Keeps a terminology under a name. -/
def keepTerminology (name : String) (t : Terminology) : Errand Unit :=
  modify fun o => { o with terminologies := o.terminologies.insert name t }

/-! ### Drafts -/

/-- The draft under a name. -/
def draft (name : String) : Errand Folder := do
  let o ← get
  Errand.ofOption (.noDraft name) (o.drafts.get? name)

/-- Keeps a draft under a name. -/
def keepDraft (name : String) (f : Folder) : Errand Unit :=
  modify fun o => { o with drafts := o.drafts.insert name f }

/-- Changes what is found below a draft from key to key, if the change has a result. -/
def changeDraft (name : String) (path : List Name) (change : Folder → Except Error Folder) :
    Errand Unit := do
  let f ← draft name
  let found ← Errand.ofDescent (f.descend path)
  let changed ← Errand.ofExcept (change found)
  let f ← Errand.ofDescent (f.changeAt (fun _ => changed) path)
  keepDraft name f

/-! ### Preparing folders -/

/-- A new folder. -/
def newFolder (name : Name) : Errand Folder := do
  let o ← get
  modify fun o => { o with supply := o.supply + 1 }
  pure (Folder.new ⟨o.supply⟩ name)

/-- What a recipe starts from. -/
def start : Source → Errand Folder
  | .new name => newFolder name
  | .draft name => draft name
  | .declared name address => do
    let c ← cabinet name
    let p ← Errand.ofExcept address.read
    Errand.ofExcept (c.lookup p)

mutual

/-- The folder that a recipe gives. -/
def prepare : Recipe → Errand Folder
  | .mk source calls => do
    let f ← start source
    performCalls calls f

/-- A folder after one call. -/
def performCall : Call → Folder → Errand Folder
  | .set key value, f => pure (f.set key value)
  | .point key address, f => do
    let p ← Errand.ofExcept address.read
    pure (f.set key (.pointer p))
  | .adopt child, f => do
    let child ← prepare child
    pure (f.adopt child)

/-- A folder after some calls. -/
def performCalls : List Call → Folder → Errand Folder
  | [], f => pure f
  | call :: rest, f => do
    let f ← performCall call f
    performCalls rest f

end

/-- The folder that a recipe gives, if there is a recipe. -/
def prepare? : Option Recipe → Errand (Option Folder)
  | none => pure none
  | some recipe => do
    let f ← prepare recipe
    pure (some f)

/-! ### Commands -/

/-- The changes that an `edit` asks for: values, keys to take away, and a child, in this order. -/
def edits (values : List (Setting.Key × Setting.Value)) (without : List Setting.Key)
    (child : Option Folder) : List Folder.Edit :=
  values.map (fun (key, value) => .set key value) ++ without.map .unset ++
    (child.map Folder.Edit.adopt).toList

/-- Carries out a command. -/
def perform : Command → Errand Unit
  | .keep name recipe => do
    let f ← prepare recipe
    keepDraft name f
  | .set name path key value => changeDraft name path fun f => .ok (f.set key value)
  | .unset name path key => changeDraft name path fun f => .ok (f.unset key)
  | .adopt name path child => do
    let child ← prepare child
    changeDraft name path fun f => .ok (f.adopt child)
  | .resolve name path registry => do
    let c ← cabinet? registry
    changeDraft name path fun f => f.resolve c
  | .declare name recipe => do
    let f ← prepare recipe
    let c ← cabinet name
    keepCabinet name (c.declare f)
  | .edit name address values without child => do
    let p ← Errand.ofExcept address.read
    let child ← prepare? child
    let c ← cabinet name
    let changed ← Errand.ofExcept (c.edit p (edits values without child))
    keepCabinet name changed
  | .fork name target => do
    let c ← cabinet name
    keepCabinet target c
  | .build name target => do
    let c ← cabinet name
    let t ← Errand.ofExcept c.contents.build.result
    keepTerminology target t
  | .buildAlone recipe registry target => do
    let f ← prepare recipe
    let c ← cabinet? registry
    let t ← Errand.ofExcept (f.contents.build (c.map Cabinet.contents)).result
    keepTerminology target t
  | .copy name target => do
    let t ← terminology name
    keepTerminology target t
  | .graft name address recipe registry => do
    let t ← terminology name
    let f ← prepare recipe
    let p ← Errand.ofExcept address.read
    let c ← cabinet? registry
    let (grown, _) ← Errand.ofExcept (t.graft p f.contents (c.map Cabinet.contents)).result
    keepTerminology name grown
  | .regenerate name id => do
    let t ← terminology name
    let t ← Errand.ofExcept (t.regenerateLogged id).result
    keepTerminology name t

/-- The office after a command; a command that fails changes nothing. -/
def after (o : Office) (command : Command) : Office :=
  match (perform command).run o with
  | .ok ((), o') => o'
  | .error _ => o

/-- The office after some commands. -/
def run (commands : List Command) (o : Office) : Office := commands.foldl after o

end Office

end TermAtlas
