import TermAtlas.Terminology.Graft
import TermAtlas.Terminology.Unwinding

/-!
# Grafting in place

A graft can work on the terminology itself. Every node is added as soon as its declaration is resolved,
and its parent gets an entry for it when the node is there with everything below it. A graft that fails
has then changed something already, and takes it back: it drops the nodes that it added, and enters
again what it has replaced. When the whole tree is there and all proxies lead to terms, the graft cannot
fail any more, and the loop derives the paths of the new nodes.

A piece of `Work` on a terminology leaves a terminology behind whether it fails or not.

## What is proved

* `Declaration.constructWithin_of_mem` — how a declaration is built, with its children one after the
  other.
* `outcome_bind`, `state_bind_of_ok`, `state_bind_of_error` — what a sequence gives, and what it leaves
  behind: what its first step leaves if that fails.
* `result_of_mem_thenUnwind` — only the work fails, not the derivation of paths after it.
-/

namespace TermAtlas

/-- The node without an entry for a child of this name if it is a term; proxies stay. -/
def Node.abandon (node : Node) (name : Name) : Node :=
  node.mapTerm fun term => { term with children := Roster.without name term.children }

/-- The paths of a term for which none are derived yet. -/
def XPaths.blank : XPaths := ⟨"", "", ""⟩

namespace Terminology

/-- The terminology with an entry for one more child of a term, in the place of the one that has its
name or else last. -/
def enter (t : Terminology) (id : Nat) (link : Link) : Terminology :=
  { t with nodes := t.nodes.modify id (·.adopt link) }

/-- The terminology with the entry for a child of a term that was there before another one was entered
under its name. -/
def reinstate (t : Terminology) (id : Nat) (name : Name) : Option Nat → Terminology
  | some old => t.enter id ⟨name, old⟩
  | none => { t with nodes := t.nodes.modify id (·.abandon name) }

/-- The terminology without the nodes from a number on. -/
def truncate (t : Terminology) (size : Nat) : Terminology := { t with nodes := t.nodes.take size }

end Terminology

/-- Work on a terminology: it may fail, and what was changed before stays changed. -/
def Work (α : Type) : Type := Terminology → Logged α × Terminology

namespace Work

variable {α β : Type}

/-- What the work gives. -/
def outcome (x : Work α) (t : Terminology) : Logged α := (x t).1

/-- The terminology that the work leaves behind. -/
def state (x : Work α) (t : Terminology) : Terminology := (x t).2

instance : Monad Work where
  pure a := fun t => (pure a, t)
  bind x f := fun t =>
    match x t with
    | (⟨log, .error e⟩, t') => (⟨log, .error e⟩, t')
    | (⟨log, .ok a⟩, t') =>
      let (y, t'') := f a t'
      (⟨log ++ y.log, y.result⟩, t'')

/-- A computation that changes nothing. -/
def ofLogged (x : Logged α) : Work α := fun t => (x, t)

/-- The terminology as it is now. -/
def current : Work Terminology := fun t => (pure t, t)

/-- Changes the terminology. -/
def change (f : Terminology → Terminology) : Work Unit := fun t => (pure (), f t)

/-- Adds a node under the next number; gives the number. -/
def add (node : Nat → Node) : Work Nat := fun t =>
  (pure t.size, { t with nodes := t.nodes ++ [node t.size] })

/-- Does some work for each item in order, up to the first failure. -/
def forEach (f : α → Work Unit) : List α → Work Unit
  | [] => pure ()
  | a :: rest => do
    f a
    forEach f rest

/-- Takes something back if the work fails. -/
def orUndo (x : Work α) (undo : Terminology → Terminology) : Work α := fun t =>
  let (y, t') := x t
  match y.result with
  | .ok _ => (y, t')
  | .error _ => (y, undo t')

/-- Enters a child of a term; gives the child that it replaces. -/
def enter (id : Nat) (link : Link) : Work (Option Nat) := do
  let t ← current
  change (·.enter id link)
  pure (t.child? (some id) link.name)

/-- Checks that every node stands for a term. -/
def checkLinks : Work Unit := do
  let t ← current
  ofLogged t.checkLinks

/-- Does the work, and if it succeeds derives paths from some nodes down, those that are to be gone
through then. -/
def thenUnwind (x : Work α) (starts : α → Terminology → List Nat) (t : Terminology) :
    Part (Logged α × Terminology) :=
  let done := x.outcome t
  match done.result with
  | .error e => Part.some (⟨done.log, .error e⟩, x.state t)
  | .ok a =>
    (Terminology.Unwinding.run ⟨x.state t, [], done.log⟩ (starts a (x.state t))).map fun u =>
      (⟨u.log, .ok a⟩, u.terminology)

end Work

/-- Builds `d` below a node, given the identities that may still be expanded and the names of the
declarations being expanded above; gives the number of the new node. -/
def Declaration.constructWithin (registry : Option Registry) (parent : Option Nat)
    (fresh : List Identity) (above : List Name) (d : Declaration) : Work Nat :=
  if _h : d.id ∈ fresh then do
    let resolved ← Work.ofLogged (d.resolve registry)
    match resolved.settings.pointer? .proxy with
    | some pointer =>
      Work.ofLogged (Logged.note (.builtProxy d.name pointer))
      Work.add fun id => .proxy ⟨id, d.name, parent, pointer, resolved.settings⟩
    | none =>
      Work.ofLogged (Logged.note (.builtTerm d.name))
      Work.ofLogged (Logged.notes (Traits.warnings d.name resolved.settings))
      let traits := Traits.ofSettings d.name resolved.settings
      let id ← Work.add fun id => .term ⟨id, d.name, parent, traits, [], .blank⟩
      Work.forEach (fun child => do
        let below ← constructWithin registry (some id) (d.id.without fresh) (above ++ [d.name]) child
        Work.change (·.enter id ⟨child.name, below⟩)) resolved.children
      pure id
  else Work.ofLogged (Logged.fail (.circularReference (above ++ [d.name])))
termination_by fresh.length
decreasing_by exact Identity.length_without_lt _h

/-- Builds a child of the term of this number and enters it there. -/
def Declaration.constructChild (registry : Option Registry) (fresh : List Identity)
    (above : List Name) (id : Nat) (child : Declaration) : Work Unit := do
  let below ← constructWithin registry (some id) fresh above child
  Work.change (·.enter id ⟨child.name, below⟩)

/-- What is done for a declaration that may be expanded: its children are built one after the other. -/
theorem Declaration.constructWithin_of_mem {registry : Option Registry} {parent : Option Nat}
    {fresh : List Identity} {above : List Name} {d : Declaration} (h : d.id ∈ fresh) :
    d.constructWithin registry parent fresh above = (do
      let resolved ← Work.ofLogged (d.resolve registry)
      match resolved.settings.pointer? .proxy with
      | some pointer =>
        Work.ofLogged (Logged.note (.builtProxy d.name pointer))
        Work.add fun id => .proxy ⟨id, d.name, parent, pointer, resolved.settings⟩
      | none =>
        Work.ofLogged (Logged.note (.builtTerm d.name))
        Work.ofLogged (Logged.notes (Traits.warnings d.name resolved.settings))
        let traits := Traits.ofSettings d.name resolved.settings
        let id ← Work.add fun id => .term ⟨id, d.name, parent, traits, [], .blank⟩
        Work.forEach (constructChild registry (d.id.without fresh) (above ++ [d.name]) id)
          resolved.children
        pure id) := by
  rw [constructWithin, dif_pos h]
  rfl

/-- Builds `d` below a node; gives the number of the new node. -/
def Declaration.construct (d : Declaration) (registry : Option Registry) (parent : Nat) : Work Nat :=
  let known := (registry.map Registry.identities).getD []
  constructWithin registry (some parent) (d.identities ++ known) [] d

/-- Builds `d` below the term at a pointer, but for its paths; gives the number of the new node. Whatever
fails, what was done before is undone. -/
def Work.attach (p : Pointer) (d : Declaration) (registry : Option Registry) : Work Nat := do
  let before ← current
  let parent ← ofLogged (Logged.ofExcept (before.locate none p))
  let id ← (d.construct registry parent).orUndo (·.truncate before.size)
  let replaced ← enter parent ⟨d.name, id⟩
  checkLinks.orUndo fun t => (t.reinstate parent d.name replaced).truncate before.size
  ofLogged (Logged.note (.grafted d.name p))
  pure id

namespace Terminology

/-- Builds `d` below the term at a pointer, if that comes to an end: the number of the new node, and the
terminology that is left behind. -/
def graftInPlace (t : Terminology) (p : Pointer) (d : Declaration) (registry : Option Registry) :
    Part (Logged Nat × Terminology) :=
  (Work.attach p d registry).thenUnwind (fun id _ => [id]) t

/-- Derives the paths of a node and all nodes below it anew, if that comes to an end. Without a node of
this number there is nothing to do. -/
def regenerateInPlace (t : Terminology) (id : Nat) : Part (Logged Unit × Terminology) :=
  Work.thenUnwind (pure ()) (fun _ t => if id < t.size then [id] else []) t

end Terminology

namespace Work

variable {α β : Type} {x : Work α} {f : α → Work β} {a : α} {e : Error} {t : Terminology}

/-! ### What work gives and leaves behind -/

@[simp]
theorem outcome_pure (a : α) (t : Terminology) : (pure a : Work α).outcome t = pure a := rfl

@[simp]
theorem state_pure (a : α) (t : Terminology) : (pure a : Work α).state t = t := rfl

@[simp]
theorem outcome_ofLogged (x : Logged α) (t : Terminology) : (ofLogged x).outcome t = x := rfl

@[simp]
theorem state_ofLogged (x : Logged α) (t : Terminology) : (ofLogged x).state t = t := rfl

@[simp]
theorem outcome_current (t : Terminology) : current.outcome t = pure t := rfl

@[simp]
theorem state_current (t : Terminology) : current.state t = t := rfl

@[simp]
theorem outcome_change (f : Terminology → Terminology) (t : Terminology) :
    (change f).outcome t = pure () := rfl

@[simp]
theorem state_change (f : Terminology → Terminology) (t : Terminology) :
    (change f).state t = f t := rfl

@[simp]
theorem outcome_add (node : Nat → Node) (t : Terminology) : (add node).outcome t = pure t.size := rfl

@[simp]
theorem state_add (node : Nat → Node) (t : Terminology) :
    (add node).state t = { t with nodes := t.nodes ++ [node t.size] } := rfl

/-- A sequence gives what its steps give one after the other. -/
theorem outcome_bind (x : Work α) (f : α → Work β) (t : Terminology) :
    (x >>= f).outcome t = x.outcome t >>= fun a => (f a).outcome (x.state t) := by
  rcases hx : x t with ⟨⟨log, result⟩, t'⟩
  cases result <;> simp [outcome, state, bind, hx]

theorem state_bind_of_ok (h : (x.outcome t).result = .ok a) :
    (x >>= f).state t = (f a).state (x.state t) := by
  rcases hx : x t with ⟨⟨log, result⟩, t'⟩
  rw [outcome, hx] at h
  subst h
  simp [state, bind, hx]

/-- A sequence that fails early leaves what its first step leaves. -/
theorem state_bind_of_error (h : (x.outcome t).result = .error e) :
    (x >>= f).state t = x.state t := by
  rcases hx : x t with ⟨⟨log, result⟩, t'⟩
  rw [outcome, hx] at h
  subst h
  simp [state, bind, hx]

theorem state_current_bind (f : Terminology → Work β) (t : Terminology) :
    (current >>= f).state t = (f t).state t :=
  state_bind_of_ok (x := current) rfl

theorem state_ofLogged_bind {x : Logged α} (h : x.result = .ok a) :
    (ofLogged x >>= f).state t = (f a).state t :=
  state_bind_of_ok (x := ofLogged x) h

/-- Giving something else in the end changes nothing. -/
theorem state_bind_pure (x : Work α) (g : α → β) (t : Terminology) :
    (x >>= fun a => pure (g a)).state t = x.state t := by
  cases h : (x.outcome t).result with
  | error e => exact state_bind_of_error h
  | ok a => exact state_bind_of_ok h

@[simp]
theorem outcome_orUndo (x : Work α) (undo : Terminology → Terminology) (t : Terminology) :
    (x.orUndo undo).outcome t = x.outcome t := by
  rcases hx : x t with ⟨⟨log, result⟩, t'⟩
  cases result <;> simp [orUndo, outcome, hx]

theorem state_orUndo_of_ok (h : (x.outcome t).result = .ok a) (undo : Terminology → Terminology) :
    (x.orUndo undo).state t = x.state t := by
  unfold orUndo state
  rw [outcome] at h
  simp [h]

theorem state_orUndo_of_error (h : (x.outcome t).result = .error e)
    (undo : Terminology → Terminology) : (x.orUndo undo).state t = undo (x.state t) := by
  unfold orUndo state
  rw [outcome] at h
  simp [h]

/-- Work that succeeds takes nothing back. -/
theorem state_orUndo_bind (h : (x.outcome t).result = .ok a) (undo : Terminology → Terminology) :
    (x.orUndo undo >>= f).state t = (f a).state (x.state t) := by
  have hundo : ((x.orUndo undo).outcome t).result = .ok a := by rw [outcome_orUndo, h]
  rw [state_bind_of_ok hundo, state_orUndo_of_ok h]

@[simp]
theorem outcome_enter (id : Nat) (link : Link) (t : Terminology) :
    (enter id link).outcome t = pure (t.child? (some id) link.name) := rfl

@[simp]
theorem state_enter (id : Nat) (link : Link) (t : Terminology) :
    (enter id link).state t = t.enter id link := rfl

@[simp]
theorem outcome_checkLinks (t : Terminology) : checkLinks.outcome t = t.checkLinks := by
  simp [checkLinks, outcome_bind]

@[simp]
theorem state_checkLinks (t : Terminology) : checkLinks.state t = t := by
  rw [checkLinks, state_bind_of_ok (outcome_current t ▸ Logged.result_pure t)]
  rfl

/-! ### Deriving paths afterwards -/

variable {starts : α → Terminology → List Nat}

/-- Work that fails derives no paths. -/
theorem thenUnwind_of_error (h : (x.outcome t).result = .error e) :
    x.thenUnwind starts t = Part.some (⟨(x.outcome t).log, .error e⟩, x.state t) := by
  rw [thenUnwind, h]

theorem thenUnwind_of_ok (h : (x.outcome t).result = .ok a) :
    x.thenUnwind starts t =
      (Terminology.Unwinding.run ⟨x.state t, [], (x.outcome t).log⟩ (starts a (x.state t))).map
        fun u => (⟨u.log, .ok a⟩, u.terminology) := by
  rw [thenUnwind, h]

/-- Deriving paths does not fail: if the whole fails, the work has. -/
theorem result_of_mem_thenUnwind {log : List Event} {left : Terminology}
    (h : (⟨log, .error e⟩, left) ∈ x.thenUnwind starts t) :
    x.outcome t = ⟨log, .error e⟩ ∧ x.state t = left := by
  cases hresult : (x.outcome t).result with
  | error e' =>
    rw [thenUnwind_of_error hresult, Part.mem_some_iff, ← hresult] at h
    obtain ⟨houtcome, hstate⟩ := Prod.mk.inj h
    exact ⟨houtcome.symm, hstate.symm⟩
  | ok a =>
    rw [thenUnwind_of_ok hresult, Part.mem_map_iff] at h
    obtain ⟨u, -, hu⟩ := h
    cases hu

end Work

end TermAtlas
