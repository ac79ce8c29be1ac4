import Mathlib.Data.List.Induction
import TermAtlas.Proofs.Importing

/-!
# Chains resolved from behind

A declaration imports along its whole chain, nearest first. It can as well import from the first declaration on
the chain alone, if that one has been resolved before: what comes from further away has then been taken over
already. Children are the same, in the same order. So are the settings, unless a mapping is severed from another
one on the chain, which is lost when the chain is gone through from behind and found when it is gone through from
the front; only their order can differ, as the default path is added at another moment.

## What is proved

* `addMissing_assoc`, `absorb_assoc` — three declarations are absorbed from the front or from behind.
* `foldl_absorb_absorb` — so are all declarations of a chain.
* `resolve_of_resolved_target` — importing along a chain is importing from its first declaration, resolved.
-/

namespace TermAtlas

open Setting

namespace Declaration

/-- Among any three of some declarations, taken in their order, no mapping is severed from another one. -/
def Unsevered (ds : List Declaration) : Prop :=
  ∀ x y z, [x, y, z].Sublist ds → ¬ Settings.Severed x.settings y.settings z.settings

/-- The same declaration, but for the order of its settings. -/
structure SameButOrder (d d' : Declaration) : Prop where
  id_eq : d'.id = d.id
  name_eq : d'.name = d.name
  get?_eq : ∀ key, d'.settings.get? key = d.settings.get? key
  children_eq : d'.children = d.children

variable {registry : Option Registry} {d target : Declaration} {chain rest : List Declaration}

/-! ### Absorbing -/

theorem addMissing_singleton (siblings : List Declaration) (child : Declaration) : addMissing siblings [child] =
    if Roster.find? child.name siblings = none then siblings ++ [child] else siblings := by
  unfold addMissing
  rw [List.foldl_cons, List.foldl_nil]
  cases Roster.find? child.name siblings <;> rfl

/-- Children are added from the front or from behind. -/
theorem addMissing_assoc (siblings more further : List Declaration) :
    addMissing siblings (addMissing more further) = addMissing (addMissing siblings more) further := by
  induction further using List.reverseRecOn with
  | nil => rfl
  | append_singleton further child ih =>
    rw [addMissing_append, addMissing_append, ← ih, addMissing_singleton (addMissing more further)]
    split_ifs with hmore
    · exact addMissing_append siblings (addMissing more further) [child]
    · have hall : Roster.find? child.name (addMissing siblings (addMissing more further)) ≠ none := by
        rw [find?_addMissing]
        cases Roster.find? child.name siblings <;> simp [hmore]
      rw [addMissing_singleton, if_neg hall]

theorem absorb_assoc {x y z : Declaration} (h : ¬ Settings.Severed x.settings y.settings z.settings) :
    x.absorb (y.absorb z) = (x.absorb y).absorb z := by
  simp only [absorb, Settings.onto_assoc h, addMissing_assoc]

/-- The nearest of the values under a key is inherited, if it is no mapping. -/
theorem exists_nearest {ds : List Declaration} {key : Key} {v : Value} (h : Inherits (held key ds) (some v))
    (hplain : v.kind ≠ .mapping) : ∃ nearest ∈ ds, nearest.settings.get? key = some v := by
  generalize hheld : held key ds = values at h
  cases h with
  | @plain v rest _ =>
    have hmem : v ∈ held key ds := hheld ▸ List.mem_cons_self
    exact List.mem_filterMap.1 hmem
  | mapping _ => exact absurd rfl hplain

/-- A mapping that is severed from another one by what a chain comes to is severed by a declaration on the
chain. -/
theorem exists_severed {x z : Declaration}
    (h : Settings.Severed x.settings (chain.foldl absorb target).settings z.settings) :
    ∃ y ∈ target :: chain, Settings.Severed x.settings y.settings z.settings := by
  obtain ⟨key, hkey, hx, hmiddle, hz⟩ := h
  obtain ⟨v, hv⟩ := Option.isSome_iff_exists.1 (OrderedMap.isSome_get?_iff.2 hkey)
  have hplain : v.kind ≠ .mapping := by simpa [hv] using hmiddle
  obtain ⟨y, hy, hnearest⟩ := exists_nearest (hv ▸ inherits_along target chain key) hplain
  have hmem : key ∈ y.settings.keys := OrderedMap.isSome_get?_iff.1 (by rw [hnearest]; rfl)
  exact ⟨y, hy, key, hmem, hx, by simpa [hnearest] using hplain, hz⟩

/-- A chain is absorbed from the front or from behind. -/
theorem foldl_absorb_absorb (h : Unsevered (d :: target :: rest)) :
    rest.foldl absorb (d.absorb target) = d.absorb (rest.foldl absorb target) := by
  induction rest using List.reverseRecOn with
  | nil => rfl
  | append_singleton front last ih =>
    have hfront : Unsevered (d :: target :: front) := by
      intro x y z hsublist
      exact h x y z (hsublist.trans (by simp))
    have hlast : ¬ Settings.Severed d.settings (front.foldl absorb target).settings last.settings := by
      intro hsevered
      obtain ⟨y, hy, hsevered⟩ := exists_severed hsevered
      have hpair : [y, last].Sublist (target :: front ++ [last]) :=
        (List.singleton_sublist.2 hy).append (List.Sublist.refl [last])
      exact h d y last (hpair.cons_cons d) hsevered
    rw [List.foldl_append, List.foldl_append, ih hfront]
    exact (absorb_assoc hlast).symm

/-! ### Importing -/

theorem id_name_and_children_defaultPath (d : Declaration) (chain : List Declaration) :
    (d.defaultPath chain).id = d.id ∧ (d.defaultPath chain).name = d.name ∧
      (d.defaultPath chain).children = d.children := by
  unfold defaultPath
  split <;> exact ⟨rfl, rfl, rfl⟩

/-- What is said of a key after importing from the first declaration on a chain, if that has been resolved. A path
that has been made up from a name is hidden by any other path. -/
theorem get?_absorb_importAlong {key : Key} (hkey : key ≠ .reference) :
    ((d.absorb (target.importAlong rest)).defaultPath [target]).settings.get? key =
      ((d.absorb (rest.foldl absorb target)).defaultPath (target :: rest)).settings.get? key := by
  rw [get?_defaultPath, get?_defaultPath]
  split_ifs with hpath
  · subst hpath
    have htext : ∀ (v : Value) (text : String), Settings.overlayValue v (.text text) = v :=
      fun v text => Settings.overlayValue_of_not_mappings fun h => by cases h.2
    have hlast : (target :: rest).getLast? = some (rest.getLast?.getD target) := List.getLast?_cons
    rw [get?_absorb, get?_absorb, get?_importAlong, if_neg hkey, get?_defaultPath, if_pos rfl, hlast]
    cases d.settings.get? .path <;> cases (rest.foldl absorb target).settings.get? .path <;>
      cases rest.getLast? <;> simp [htext]
  · rw [get?_absorb, get?_absorb, get?_importAlong, if_neg hkey, get?_defaultPath, if_neg hpath]

/-- To import along a chain is to import from the first declaration on it, if that has been resolved before. -/
theorem resolve_of_resolved_target (hchain : (d.chain registry).result = .ok (target :: rest))
    (h : Unsevered (d :: target :: rest)) : ∃ middle resolved,
      (target.resolve registry).result = .ok middle ∧ (d.resolve registry).result = .ok resolved ∧
      resolved.SameButOrder (((d.absorb middle).defaultPath [target]).unset .reference) := by
  obtain ⟨-, hrest⟩ := chain_of_chain_cons hchain
  refine ⟨_, _, resolve_eq_ok_iff.2 ⟨rest, hrest, rfl⟩, resolve_eq_ok_iff.2 ⟨_, hchain, rfl⟩, ?_⟩
  have hfold : (target :: rest).foldl absorb d = d.absorb (rest.foldl absorb target) := foldl_absorb_absorb h
  obtain ⟨hid, hname, hchildren⟩ :=
    id_name_and_children_defaultPath (d.absorb (target.importAlong rest)) [target]
  refine ⟨hid.trans ?_, hname.trans ?_, fun key => ?_, hchildren.trans ?_⟩
  · exact (id_and_name_importAlong d (target :: rest)).1.symm
  · exact (id_and_name_importAlong d (target :: rest)).2.symm
  · rw [get?_importAlong, hfold]
    have hunset : (((d.absorb (target.importAlong rest)).defaultPath [target]).unset .reference).settings.get? key =
      if key = .reference then none
        else ((d.absorb (target.importAlong rest)).defaultPath [target]).settings.get? key :=
      OrderedMap.get?_erase _ _ _
    rw [hunset]
    split_ifs with hkey
    · rfl
    · exact get?_absorb_importAlong hkey
  · rw [absorb, children_importAlong, children_importAlong, List.flatMap_cons, addMissing_append]
    exact addMissing_assoc d.children target.children (rest.flatMap Declaration.children)

end Declaration

namespace Terminology.Sample

open Declaration

/-- Works, and books, which are works and have attributes of their own. -/
def catalogue : Registry where
  roots := [
    declaration 0 "work" [(.attributes, mapping [("kind", .text "work"), ("language", .text "en")])]
      [declaration 1 "title" [] [], declaration 2 "date" [] []],
    declaration 3 "book" [(.attributes, mapping [("kind", .text "book"), ("binding", .text "cloth")]),
        (.reference, .pointer (pointer ["work"])), (.required, .flag true)]
      [declaration 4 "title" [] [], declaration 5 "isbn" [] []]]
  distinct := by decide

/-- Novels import the same from books that are works already: the kind is their own, the binding that of books and
the language that of works, which is also where the path is from. -/
theorem resolve_of_novel_and_book :
    (novel.chain (some catalogue)).result = .ok [catalogue.roots[1], catalogue.roots[0]] ∧
    Unsevered [novel, catalogue.roots[1], catalogue.roots[0]] ∧
    ∃ book resolved, (catalogue.roots[1].resolve (some catalogue)).result = .ok book ∧
      (novel.resolve (some catalogue)).result = .ok resolved ∧
      resolved.SameButOrder (((novel.absorb book).defaultPath [catalogue.roots[1]]).unset .reference) ∧
      resolved.settings.get? .path = some (.text "work") ∧
      resolved.settings.get? .attributes =
        some (mapping [("kind", .text "novel"), ("language", .text "en"), ("binding", .text "cloth")]) := by
  have hchain : (novel.chain (some catalogue)).result = .ok [catalogue.roots[1], catalogue.roots[0]] :=
    chain_eq_ok_iff_walk.2 ⟨catalogue.roots[0], .cons rfl (.cons rfl .nil), by decide +kernel, rfl⟩
  have hunsevered : Unsevered [novel, catalogue.roots[1], catalogue.roots[0]] := by
    intro x y z hsublist
    have hall : [x, y, z] = [novel, catalogue.roots[1], catalogue.roots[0]] := hsublist.eq_of_length rfl
    cases hall
    decide +kernel
  obtain ⟨book, resolved, hbook, hresolved, hsame⟩ := resolve_of_resolved_target hchain hunsevered
  obtain ⟨_, hok, rfl⟩ := resolve_eq_ok_iff.1 hresolved
  obtain rfl := Except.ok.inj (hok.symm.trans hchain)
  exact ⟨hchain, hunsevered, book, _, hbook, hresolved, hsame, by decide +kernel, by decide +kernel⟩

end Terminology.Sample

end TermAtlas
