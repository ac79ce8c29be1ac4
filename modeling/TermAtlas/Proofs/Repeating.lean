import TermAtlas.Proofs.Agreement
import TermAtlas.Proofs.Alone
import TermAtlas.Proofs.Family
import TermAtlas.Proofs.Plain

/-!
# Identities that come back

A declaration is self-contained when neither it nor one below it refers to anything or stands for anything.
Its tree has an end by itself, and nothing is looked up in a registry. Still it can be refused: copies share
their identity, and a copy that lies below what it was copied from is taken for an import without end. This is
all that can go wrong; wherever identities are apart there is one term for each declaration.

## What is proved

* `Plain.expandWithin_eq_error_iff` — a plain declaration is refused at the first identity that comes back.
* `unrepeated_of_nodup` — where identities are apart none comes back.
* `SelfContained.build_iff_unrepeated` — how a self-contained declaration is built, or why it is refused.
-/

namespace TermAtlas

namespace Declaration

/-- Going down from `d`, given the identities above it, the first one that comes twice is met at the end of
these names; below a proxy nothing is built. -/
inductive Repeats : List Identity → Declaration → List Name → Prop where
  /-- The identity here is above. -/
  | here {above : List Identity} {d : Declaration} : d.id ∈ above → Repeats above d [d.name]
  /-- It is met below a child, and not below the children before. -/
  | further {above : List Identity} {d child : Declaration} {before after : List Declaration}
      {trail : List Name} : d.id ∉ above → d.settings.pointer? .proxy = none →
      d.children = before ++ child :: after → (∀ other ∈ before, Unrepeated (d.id :: above) other) →
      Repeats (d.id :: above) child trail → Repeats above d (d.name :: trail)

/-- Neither the declaration nor one below it has a reference or is a proxy. -/
inductive SelfContained : Declaration → Prop where
  /-- There is neither of them here, nor below. -/
  | intro {d : Declaration} : d.settings.get? .reference = none → d.settings.get? .proxy = none →
      (∀ child ∈ d.children, SelfContained child) → SelfContained d

/-- A node is the term that `d` declares. -/
def Depicts (d : Declaration) (node : Node) : Prop :=
  ∃ term, node = .term term ∧ term.name = d.name ∧ term.traits = Traits.ofSettings d.name d.settings

variable {d : Declaration} {ds : List Declaration} {registry : Option Registry}
  {fresh above : List Identity} {names : List Name}

/-! ### What comes back -/

/-- A plain declaration is refused at the first identity that comes back, with the names down to it. -/
theorem Plain.expandWithin_eq_error_iff (h : d.Plain)
    (hfresh : ∀ id ∈ d.identities, id ∈ fresh ↔ id ∉ above) {e : Error} :
    (expandWithin registry fresh names d).result = .error e ↔
      ∃ trail, Repeats above d trail ∧ e = .circularReference (names ++ trail) := by
  induction fresh, names, d using expandWithin.induct generalizing above with
  | case1 fresh names d hid ih =>
    have hnew : d.id ∉ above := (hfresh _ d.id_mem_identities).1 hid
    rw [expandWithin, dif_pos hid, Logged.result_bind_eq_error_iff]
    simp only [h.resolve, reduceCtorEq, false_or, Except.ok.injEq, exists_eq_left']
    cases hpointer : d.settings.pointer? .proxy with
    | some pointer =>
      simp only [Logged.result_bind_eq_error_iff, Logged.result_note, Logged.result_pure, reduceCtorEq,
        false_or, and_false, exists_false, false_iff]
      rintro ⟨trail, hrepeats, -⟩
      cases hrepeats with
      | here hmem => exact hnew hmem
      | further _ hnone => simp [hpointer] at hnone
    | none =>
      have hok : ∀ other ∈ d.children,
          (∃ e, (expandWithin registry (d.id.without fresh) (names ++ [d.name]) other).result = .ok e) ↔
            Unrepeated (d.id :: above) other := by
        intro other hother
        simp only [(h.of_mem hother).expandWithin_eq_ok_iff (mem_without_iff_of_child hfresh hother),
          exists_and_left, exists_eq', and_true]
      simp only [Logged.result_bind_eq_error_iff, Logged.result_note, Logged.result_notes,
        Logged.result_pure, Logged.result_traverse_eq_error_iff, reduceCtorEq, false_or, and_false,
        exists_false, or_false, exists_const, true_and]
      constructor
      · rintro ⟨before, child, after, hchildren, hbefore, hchild⟩
        have hmem : child ∈ d.children := by simp [hchildren]
        obtain ⟨trail, hrepeats, rfl⟩ :=
          (ih child (h.of_mem hmem) (mem_without_iff_of_child hfresh hmem)).1 hchild
        refine ⟨d.name :: trail, .further hnew hpointer hchildren (fun other hother => ?_) hrepeats, by simp⟩
        exact (hok other (by simp [hchildren, hother])).1 (hbefore other hother)
      · rintro ⟨trail, hrepeats, rfl⟩
        cases hrepeats with
        | here hmem => exact absurd hmem hnew
        | @further _ _ child before after trail _ _ hchildren hbefore hrepeats =>
          have hmem : child ∈ d.children := by simp [hchildren]
          refine ⟨before, child, after, hchildren, fun other hother => ?_, ?_⟩
          · exact (hok other (by simp [hchildren, hother])).2 (hbefore other hother)
          · exact (ih child (h.of_mem hmem) (mem_without_iff_of_child hfresh hmem)).2
              ⟨trail, hrepeats, by simp⟩
  | case2 fresh names d hid =>
    have hseen : d.id ∈ above := by
      by_contra hnew
      exact hid ((hfresh _ d.id_mem_identities).2 hnew)
    rw [expandWithin, dif_neg hid, Logged.result_fail, Except.error.injEq]
    constructor
    · rintro rfl
      exact ⟨[d.name], .here hseen, rfl⟩
    · rintro ⟨trail, hrepeats, rfl⟩
      cases hrepeats with
      | here _ => rfl
      | further hnew => exact absurd hseen hnew

theorem Plain.expand_eq_error_iff (h : d.Plain) {e : Error} :
    (d.expand registry).result = .error e ↔ ∃ trail, Repeats [] d trail ∧ e = .circularReference trail := by
  refine h.expandWithin_eq_error_iff fun id hid => ?_
  simp [hid]

mutual

/-- Where identities are apart none comes back. -/
theorem unrepeated_of_nodup {above : List Identity} {d : Declaration} (h : d.identities.Nodup)
    (habove : ∀ id ∈ d.identities, id ∉ above) : Unrepeated above d := by
  cases d with
  | mk id name settings children =>
    rw [identities, List.nodup_cons] at h
    refine .intro (habove _ (id_mem_identities _)) fun _ => forall_unrepeated_of_nodup h.2 fun other hother => ?_
    rw [List.mem_cons, not_or]
    refine ⟨?_, habove other ?_⟩
    · rintro rfl
      exact h.1 hother
    · rw [identities]
      exact List.mem_cons_of_mem _ hother

theorem forall_unrepeated_of_nodup {above : List Identity} {ds : List Declaration}
    (h : (identitiesOfAll ds).Nodup) (habove : ∀ id ∈ identitiesOfAll ds, id ∉ above) :
    ∀ d ∈ ds, Unrepeated above d := by
  cases ds with
  | nil => simp
  | cons d rest =>
    rw [identitiesOfAll] at h habove
    obtain ⟨hd, hrest, -⟩ := List.nodup_append.1 h
    refine List.forall_mem_cons.2 ⟨unrepeated_of_nodup hd fun id hid => ?_,
      forall_unrepeated_of_nodup hrest fun id hid => ?_⟩
    · exact habove id (List.mem_append_left _ hid)
    · exact habove id (List.mem_append_right _ hid)

end

/-! ### Terms for declarations -/

theorem SelfContained.plain (h : d.SelfContained) : d.Plain := by
  induction h with
  | intro href _ _ ih => exact .intro href ih

theorem SelfContained.proxy (h : d.SelfContained) : d.settings.pointer? .proxy = none := by
  cases h with
  | intro _ hproxy _ => simp [Settings.pointer?, hproxy]

theorem depicts_nodesOfAll
    (h : ∀ d ∈ ds, ∀ start above, List.Forall₂ Depicts d.family (d.outline.nodes start above)) (start : Nat)
    (above : Option (Nat × XPaths)) :
    List.Forall₂ Depicts (familyOfAll ds) (Expansion.nodesOfAll start above (ds.map outline)) := by
  induction ds generalizing start with
  | nil => exact .nil
  | cons d rest ih =>
    obtain ⟨hd, hrest⟩ := List.forall_mem_cons.1 h
    exact List.rel_append (hd start above) (ih hrest _)

/-- The nodes of a self-contained declaration are the terms that its family declares, one by one. -/
theorem SelfContained.depicts (h : d.SelfContained) (start : Nat) (above : Option (Nat × XPaths)) :
    List.Forall₂ Depicts d.family (d.outline.nodes start above) := by
  induction h generalizing start above with
  | @intro d href hproxy hchildren ih =>
    have hpointer : d.settings.pointer? .proxy = none := by simp [Settings.pointer?, hproxy]
    rw [family_eq, outline_of_term hpointer, Expansion.nodes]
    exact .cons ⟨_, rfl, rfl, rfl⟩ (depicts_nodesOfAll ih _ _)

/-! ### Building -/

/-- For a plain declaration it does not matter which registry there is. -/
theorem Plain.result_expand (h : d.Plain) (registry : Option Registry) :
    (d.expand registry).result = (d.expand none).result := by
  cases hexpand : (d.expand registry).result with
  | ok e => exact (h.expand_eq_ok_iff.2 (h.expand_eq_ok_iff.1 hexpand)).symm
  | error e => exact (h.expand_eq_error_iff.2 (h.expand_eq_error_iff.1 hexpand)).symm

theorem SelfContained.depicts_ofForest (h : d.SelfContained) :
    List.Forall₂ Depicts d.family (Terminology.ofForest [d.outline]).nodes := by
  have hall := h.depicts 0 none
  rwa [← List.append_nil (Expansion.nodes 0 none d.outline)] at hall

/-- No node of a self-contained declaration is a proxy that would have to lead somewhere. -/
theorem SelfContained.checkLinks (h : d.SelfContained) :
    (Terminology.ofForest [d.outline]).checkLinks.result = .ok () := by
  rw [(Terminology.arranged_ofForest _).checkLinks_iff]
  intro place proxy hnode
  obtain ⟨hplace, hproxy⟩ := List.getElem?_eq_some_iff.1 hnode
  have hdepicts := h.depicts_ofForest.get (by rwa [h.depicts_ofForest.length_eq]) hplace
  obtain ⟨term, hterm, -⟩ := hdepicts
  cases hproxy.symm.trans hterm

/-- A self-contained declaration is built as soon as it is expanded. -/
theorem SelfContained.result_build (h : d.SelfContained) (registry : Option Registry) :
    (d.build registry).result = (d.expand registry).result.map fun e => Terminology.ofForest [e] := by
  cases hexpand : (d.expand registry).result with
  | ok e =>
    obtain ⟨-, rfl⟩ := h.plain.expand_eq_ok_iff.1 hexpand
    exact build_eq_ok_iff.2 ⟨_, hexpand, rfl, h.checkLinks⟩
  | error e =>
    rw [build, Terminology.result_build, Logged.traverse, Logged.result_bind, hexpand]
    rfl

/-- A self-contained declaration is built in the same way whatever the registry. There is a result if no
identity comes back below itself, and then it has the terms that the family declares, one for each
declaration. Otherwise the declaration is refused with the names down to the first identity that does. -/
theorem SelfContained.build_iff_unrepeated (h : d.SelfContained) (registry : Option Registry) :
    (d.build registry).result = (d.build none).result ∧
    ((∃ t, (d.build registry).result = .ok t) ↔ Unrepeated [] d) ∧
    (∀ t, (d.build registry).result = .ok t →
      t.roots = [⟨d.name, 0⟩] ∧ List.Forall₂ Depicts d.family t.nodes) ∧
    ∀ e, (d.build registry).result = .error e ↔
      ∃ trail, Repeats [] d trail ∧ e = .circularReference trail := by
  have hsame : (d.build registry).result = (d.build none).result := by
    rw [h.result_build, h.result_build, h.plain.result_expand]
  have herror : ∀ e, (d.expand registry).result = .error e ↔
      ∃ trail, Repeats [] d trail ∧ e = .circularReference trail := fun e => h.plain.expand_eq_error_iff
  refine ⟨hsame, ?_⟩
  cases hexpand : (d.expand registry).result with
  | ok e =>
    obtain ⟨hunrepeated, rfl⟩ := h.plain.expand_eq_ok_iff.1 hexpand
    have hbuild : (d.build registry).result = .ok (Terminology.ofForest [d.outline]) := by
      rw [h.result_build, hexpand]
      rfl
    refine ⟨iff_of_true ⟨_, hbuild⟩ hunrepeated, fun t ht => ?_, fun e => ?_⟩
    · obtain rfl := Except.ok.inj (hbuild.symm.trans ht)
      exact ⟨by simp [Terminology.ofForest, Expansion.links, name_outline], h.depicts_ofForest⟩
    · rw [hbuild, ← herror, hexpand]
      simp
  | error refusal =>
    have hbuild : (d.build registry).result = .error refusal := by
      rw [h.result_build, hexpand]
      rfl
    have hrepeated : ¬ Unrepeated [] d := by
      intro hunrepeated
      have hexpand' : (d.expand registry).result = .ok d.outline :=
        h.plain.expand_eq_ok_iff.2 ⟨hunrepeated, rfl⟩
      cases hexpand.symm.trans hexpand'
    have hnone : ∀ t, (d.build registry).result ≠ .ok t := by simp [hbuild]
    refine ⟨iff_of_false (not_exists.2 hnone) hrepeated, fun t ht => absurd ht (hnone t), fun e => ?_⟩
    rw [hbuild, ← herror, hexpand]
    simp

end Declaration

namespace Terminology.Sample

/-- A term with a copy of it below, as it comes from adopting what was copied. -/
def copied : Declaration := declaration 0 "x" [] [declaration 0 "x" [] []]

theorem selfContained_declaration {number : Nat} {name : String} {children : List Declaration}
    (h : ∀ child ∈ children, child.SelfContained) :
    (declaration number name [] children).SelfContained :=
  .intro rfl rfl h

theorem selfContained_role : role.SelfContained := by
  refine selfContained_declaration ?_
  simp [selfContained_declaration]

/-- A role that refers to nothing is built alone as three terms, with a registry and without. -/
theorem build_of_role : role.SelfContained ∧ (role.build (some registry)).result = (role.build none).result ∧
    ∃ t, (role.build (some registry)).result = .ok t ∧ t.size = 3 := by
  have hunrepeated : Declaration.Unrepeated [] role :=
    Declaration.unrepeated_of_nodup (by decide) (by simp)
  obtain ⟨hsame, hbuilt, hterms, -⟩ := selfContained_role.build_iff_unrepeated (some registry)
  obtain ⟨t, ht⟩ := hbuilt.2 hunrepeated
  exact ⟨selfContained_role, hsame, t, ht, (hterms t ht).2.length_eq.symm⟩

/-- What has a copy of itself below is refused as circular, although nothing in it refers to anything. -/
theorem circular_of_copied : copied.SelfContained ∧ ∀ registry : Option Registry,
    (copied.build registry).result = .error (.circularReference [⟨"x"⟩, ⟨"x"⟩]) := by
  have hcopied : copied.SelfContained := by
    refine selfContained_declaration ?_
    simp [selfContained_declaration]
  refine ⟨hcopied, fun registry => ?_⟩
  have hchildren : copied.children = [] ++ declaration 0 "x" [] [] :: [] := rfl
  have hrepeats : Declaration.Repeats [] copied [⟨"x"⟩, ⟨"x"⟩] :=
    .further List.not_mem_nil rfl hchildren (by simp) (.here (by decide))
  rw [hcopied.result_build, hcopied.plain.expand_eq_error_iff.2 ⟨_, hrepeats, rfl⟩]
  rfl

end Terminology.Sample

end TermAtlas
