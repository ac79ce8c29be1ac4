import TermAtlas.Terminology.Proxy

/-!
# Looking terms up

A pointer addresses a term by going down from a scope; proxies on the way are followed. An indexed
pointer gives a path expression for one node: one step for each term from the root down, and behind
the steps that have an index the position that it asks for, counted from one. A step that names a
proxy stands for all the terms along the pointer of the proxy, and its index belongs to the last of
them.
-/

namespace TermAtlas.Terminology

/-- The term at a pointer, down from a scope. -/
def locate (t : Terminology) (scope : Option Nat) (p : Pointer) : Except Error Nat :=
  match p.segments with
  | [] => .error .emptyPointer
  | first :: rest =>
    descend (fun scope name =>
      match t.child? scope name with
      | none => .error (.noSuchTerm p name)
      | some next => t.follow next) scope first rest

/-- The term at a pointer, down from a scope, if there is one. -/
def retrieveIn? (t : Terminology) (scope : Option Nat) (p : Pointer) : Option Term :=
  (t.locate scope p).toOption.bind t.term?

/-- The term at a pointer, down from the roots. -/
def retrieve? (t : Terminology) (p : Pointer) : Option Term := t.retrieveIn? none p

/-- The term at a pointer, down from the children of a term. -/
def retrieveFrom? (t : Terminology) (id : Nat) (p : Pointer) : Option Term :=
  t.retrieveIn? (some id) p

/-- Whether there is a term at a pointer. -/
def hasTerm (t : Terminology) (p : Pointer) : Bool := (t.retrieve? p).isSome

/-- The absolute path of the term at a pointer. -/
def pathFor? (t : Terminology) (p : Pointer) : Option String :=
  (t.retrieve? p).map (·.paths.absolute)

/-! ### Positions -/

/-- The terms that names span, if `span` gives those that a node spans: each name is looked up below the
last term of the name before it. -/
def spanAlong (t : Terminology) (span : Nat → Option (List Nat)) :
    Option Nat → List Name → Option (List Nat)
  | _, [] => some []
  | scope, name :: names => do
    let next ← t.child? scope name
    let steps ← span next
    let more ← spanAlong t span steps.getLast? names
    some (steps ++ more)

/-- The terms that a node spans, given the proxies in progress: the node itself if it is a term, and
for a proxy what the names of its pointer span, one after the other. -/
def spanWithin (t : Terminology) (inProgress : List Nat) (id : Nat) : Option (List Nat) :=
  match _hnode : t.node? id with
  | none => none
  | some (.term _) => some [id]
  | some (.proxy proxy) =>
    if _hnew : id ∈ inProgress then none
    else
      t.spanAlong (fun next => spanWithin t (inProgress ++ [id]) next) proxy.parent
        proxy.pointer.segments
termination_by (t.others inProgress).length
decreasing_by exact length_others_lt (lt_size_of_node? _hnode) _hnew

/-- The terms that a node spans. -/
def span (t : Terminology) (id : Nat) : Option (List Nat) := t.spanWithin [] id

/-- The position that an index asks for, in brackets and counted from one; none for the greatest
index, which no position follows. -/
def position (index : UInt64) : Option String :=
  if index.toNat + 1 < UInt64.size then some ("[" ++ toString (index.toNat + 1) ++ "]") else none

/-- The texts of one step: one for each term that it spans, the position behind the last. -/
def stepTexts (t : Terminology) (index : Option UInt64) (span : List Nat) : Option (List String) :=
  span.mapM fun id => do
    let term ← t.term? id
    let text := term.paths.relative ++ term.traits.predicates
    match index with
    | some index => if span.getLast? = some id then (position index).map (text ++ ·) else some text
    | none => some text

/-- The texts of the steps of an indexed pointer, down from a scope. -/
def queryTexts (t : Terminology) (scope : Option Nat) : List Step → Option (List String)
  | [] => some []
  | step :: rest => do
    let id ← t.child? scope step.name
    let span ← t.span id
    let last ← span.getLast?
    let texts ← t.stepTexts step.index span
    let more ← queryTexts t (some last) rest
    some (texts ++ more)

/-- The path expression for the node that an indexed pointer asks for. -/
def query? (t : Terminology) (p : IndexedPointer) : Option String :=
  match t.queryTexts none p.steps with
  | none | some [] => none
  | some texts => some ("//" ++ "/".intercalate texts)

end TermAtlas.Terminology
