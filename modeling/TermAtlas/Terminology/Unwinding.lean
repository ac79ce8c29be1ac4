import Mathlib.Computability.StateTransition
import TermAtlas.Terminology.Basic

/-!
# Deriving paths with a stack

Paths are derived from a node down by a loop with a stack. It takes a node from the stack, derives its
paths, records where it is, and puts its children on the stack, the first one on top. A proxy has no
paths and no children.

Nothing in the loop says that it comes to an end. So it gives a result only if it does.
-/

namespace TermAtlas.Terminology

open StateTransition

/-- The loop between two turns. -/
structure Unwinding where
  /-- The terminology, with the paths that are derived so far. -/
  terminology : Terminology
  /-- The nodes that are still to be gone through, the next one first. -/
  stack : List Nat
  /-- What is recorded so far. -/
  log : List Event

/-- One turn of the loop, unless the stack is empty. -/
def Unwinding.turn (u : Unwinding) : Option Unwinding :=
  match u.stack with
  | [] => none
  | id :: stack =>
    match u.terminology.term? id with
    | none => some { u with stack }
    | some term =>
      let derived := u.terminology.refresh id
      some ⟨derived, term.children.map Link.node ++ stack, u.log ++ derived.locations [id]⟩

/-- Derives paths from each of some nodes down, one after the other, each until the stack is empty. -/
def Unwinding.run (u : Unwinding) : List Nat → Part Unwinding
  | [] => Part.some u
  | id :: rest => (eval turn { u with stack := [id] }).bind fun done => run done rest

end TermAtlas.Terminology
