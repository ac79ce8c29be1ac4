import TermAtlas.Terminology.Basic

/-!
# Following proxies

A proxy stands for the term at the end of its pointer. The pointer is walked from the siblings of the
proxy, and every node met on the way is first replaced by the term that it stands for in its turn.
While a proxy is being followed it must not be met again; the proxies in progress are remembered, and
as there are only so many nodes, following ends.
-/

namespace TermAtlas.Terminology

/-- The numbers of nodes other than those given. -/
def others (t : Terminology) (ids : List Nat) : List Nat :=
  (List.range t.size).filter (· ∉ ids)

theorem length_others_lt {t : Terminology} {ids : List Nat} {id : Nat}
    (hid : id < t.size) (hnew : id ∉ ids) :
    (t.others (ids ++ [id])).length < (t.others ids).length := by
  have h : t.others (ids ++ [id]) = (t.others ids).filter (· ≠ id) := by
    simp only [others, List.filter_filter]
    congr 1
    funext x
    by_cases hx : x = id <;> simp [hx]
  rw [h, List.length_filter_lt_length_iff_exists]
  exact ⟨id, by simp [others, hid, hnew], by simp⟩

/-- Walks down from a scope along a list of names; `step` gives the term for a name in a scope. -/
def descend (step : Option Nat → Name → Except Error Nat) (scope : Option Nat)
    (first : Name) (rest : List Name) : Except Error Nat := do
  let start ← step scope first
  rest.foldlM (fun id name => step (some id) name) start

/-- The term that a node stands for, given the proxies in progress. -/
def followWithin (t : Terminology) (inProgress : List Nat) (id : Nat) : Except Error Nat :=
  match _hnode : t.node? id with
  | none => .error (.unknownTerm id)
  | some (.term _) => .ok id
  | some (.proxy proxy) =>
    if _hnew : id ∈ inProgress then
      .error (.circularReference
        ((inProgress.filterMap t.node?).map Node.name ++ [proxy.name]))
    else
      let bad := Error.badPointer proxy.name proxy.pointer
      match proxy.pointer.segments with
      | [] => .error bad
      | first :: rest =>
        descend (fun scope name =>
          match t.child? scope name with
          | none => .error bad
          | some next => followWithin t (inProgress ++ [id]) next) proxy.parent first rest
termination_by (t.others inProgress).length
decreasing_by exact length_others_lt (lt_size_of_node? _hnode) _hnew

/-- The term that a node stands for: itself, or the one that a proxy leads to. -/
def follow (t : Terminology) (id : Nat) : Except Error Nat := t.followWithin [] id

/-- The term that a node stands for. -/
def resolveProxy (t : Terminology) (id : Nat) : Except Error Term :=
  match t.follow id with
  | .error e => .error e
  | .ok target =>
    match t.term? target with
    | none => .error (.unknownTerm target)
    | some term => .ok term

/-- Checks that a node stands for a term. -/
def checkLink (t : Terminology) : Node → Logged Unit
  | .term _ => pure ()
  | .proxy proxy => do
    let target ← Logged.ofExcept (t.resolveProxy proxy.id)
    Logged.note (.forwards proxy.name target.name)

/-- Checks that every node stands for a term, in the order of their numbers. -/
def checkLinks (t : Terminology) : Logged Unit := do
  let _ ← Logged.traverse t.checkLink t.nodes
  pure ()

end TermAtlas.Terminology
