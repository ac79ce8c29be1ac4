import TermAtlas.Proofs.Heredity

/-!
# Names apart

A declaration is *apart* when no two of its children have the same name, and its children are apart in
turn. A new declaration has no children, and adopting a child replaces the one that has its name; so all
declarations that are put together by edits are apart, and those that are imported along references stay
so: a child is only added if its name is new.

## What is proved

* `hereditary_apart` — edits and imports keep names apart.
* `Apart.resolve` — so does resolving.
-/

namespace TermAtlas

/-- No two siblings have the same name, neither the children nor those further down. -/
inductive Declaration.Apart : Declaration → Prop where
  /-- The names of the children are apart, and the children are apart. -/
  | intro {d : Declaration} : (Roster.names d.children).Nodup → (∀ child ∈ d.children, Apart child) →
      Apart d

/-- No two siblings below a root have the same name. -/
def Registry.Apart (r : Registry) : Prop := ∀ d ∈ r.roots, d.Apart

namespace Declaration

variable {d child resolved : Declaration} {registry : Option Registry}

theorem Apart.nodup (h : d.Apart) : (Roster.names d.children).Nodup := by
  cases h with
  | intro hnodup _ => exact hnodup

theorem Apart.of_mem (h : d.Apart) (hchild : child ∈ d.children) : child.Apart := by
  cases h with
  | intro _ hchildren => exact hchildren child hchild

@[simp]
theorem apart_mk_iff {id : Identity} {name : Name} {settings : Settings}
    {children : List Declaration} : Apart ⟨id, name, settings, children⟩ ↔
      (Roster.names children).Nodup ∧ ∀ child ∈ children, child.Apart := by
  constructor
  · intro h
    exact ⟨h.nodup, fun child hchild => h.of_mem hchild⟩
  · rintro ⟨hnodup, hchildren⟩
    exact .intro hnodup hchildren

/-- Edits and imports keep names apart. -/
theorem hereditary_apart : Hereditary Apart where
  nodup _ h := h.nodup
  child _ h _ hchild := h.of_mem hchild
  change _ _ _ _ _ hnodup hchildren := .intro hnodup hchildren

/-- Resolving a declaration keeps names apart. -/
theorem Apart.resolve (h : d.Apart) (hregistry : ∀ r, registry = some r → r.Apart)
    (hresolve : (d.resolve registry).result = .ok resolved) : resolved.Apart :=
  hereditary_apart.resolve h hregistry hresolve

end Declaration

end TermAtlas
