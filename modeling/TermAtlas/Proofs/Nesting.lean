import Mathlib.Data.List.Dedup
import Mathlib.Data.List.Perm.Subperm
import TermAtlas.Proofs.Apart
import TermAtlas.Proofs.Building

/-!
# How deep expansion goes

A declaration may import children that import children in turn, so what is expanded is not always a
part of what was declared. There is an end to it nonetheless: every declaration that can be met, by
following references or by going down, bears an identity of the declaration that was given or of the
registry; and along a chain of references, and along the declarations in progress one below the other,
no identity comes twice.

`expandUpTo` is expansion with two limits, on the declarations that are looked at along one chain of
references and on the declarations that are in progress at once. Unlike `expandWithin`, it is not told
which identities are left; it looks for an identity among the declarations above, and it gives up when
a limit is passed. With as many as there are identities, and one more for a declaration that turns out
to be in progress already, no limit is ever passed.

## What is proved

* `identities_subset_of_resolve` — what is imported comes from the registry.
* `chainUpTo_eq`, `expandUpTo_eq` — within the limits, nothing is given up.
* `nodup_of_descent` — on the way down to a node, no identity is expanded twice.
* `Declaration.expand_within_limits` — both for a declaration that is expanded on its own, and for
  whole terminologies.
-/

namespace TermAtlas

namespace Declaration

/-! ### Limits -/

/-- The chain from `d` on, given up when it has more than so many declarations to look at. -/
def chainUpTo (registry : Option Registry) :
    Nat → List Declaration → Declaration → OptionT Logged (List Declaration)
  | 0, _, _ => failure
  | count + 1, visited, d =>
    match d.settings.get? .reference with
    | none => pure []
    | some value =>
      match value.toPointer? with
      | none => do
        Logged.note (.referenceIgnored d.name value.kind)
        pure []
      | some pointer =>
        match registry with
        | none => liftM (Logged.fail (α := List Declaration) (.missingReferenceContext d.name))
        | some r =>
          match r.lookup pointer with
          | .error _ => liftM (Logged.fail (α := List Declaration) (.badPointer d.name pointer))
          | .ok target =>
            if target.isAmong visited then
              liftM (Logged.fail (α := List Declaration)
                (.circularReference ((target :: visited).reverse.map name)))
            else do
              Logged.note (.refers d.name target.name pointer)
              (target :: ·) <$> chainUpTo registry count (target :: visited) target

/-- `d` after importing along its own chain, given up when the chain is too long. -/
def resolveUpTo (registry : Option Registry) (count : Nat) (d : Declaration) :
    OptionT Logged Declaration := do
  let chain ← chainUpTo registry count [d] d
  if chain ≠ [] then Logged.note (.resolving d.name (chain.map name))
  Logged.notes (absorbEvents d chain)
  pure (d.importAlong chain)

/-- The expansion of `d` below the declarations `above`, given up when it has more than `depth`
declarations in progress at once or more than `count` to look at along a chain. -/
def expandUpTo (registry : Option Registry) (count : Nat) :
    Nat → List Declaration → Declaration → OptionT Logged Expansion
  | 0, _, _ => failure
  | depth + 1, above, d =>
    if d.isAmong above then
      liftM (Logged.fail (α := Expansion) (.circularReference ((above ++ [d]).map name)))
    else do
      let resolved ← d.resolveUpTo registry count
      match resolved.settings.pointer? .proxy with
      | some pointer =>
        Logged.note (.builtProxy d.name pointer)
        pure (.proxy d.name pointer resolved.settings)
      | none =>
        Logged.note (.builtTerm d.name)
        Logged.notes (Traits.warnings d.name resolved.settings)
        let children ← resolved.children.mapM (expandUpTo registry count depth (above ++ [d]))
        pure (.term d.name (Traits.ofSettings d.name resolved.settings) children)

end Declaration

/-- The part of a tree at the node along some positions. -/
def Expansion.at? : List Nat → Expansion → Option Expansion
  | [], e => some e
  | position :: path, .term _ _ children => children[position]?.bind (at? path)
  | _ :: _, .proxy _ _ _ => none

namespace Declaration

variable {registry : Option Registry} {d child target resolved : Declaration}
  {visited above chain siblings more : List Declaration} {known : List Identity} {count depth : Nat}

theorem isAmong_iff {all : List Declaration} : d.isAmong all = true ↔ d.id ∈ all.map id := by
  simp only [isAmong, List.any_eq_true, decide_eq_true_eq, List.mem_map]

theorem not_isAmong_iff {all : List Declaration} : d.isAmong all = false ↔ d.id ∉ all.map id := by
  rw [← isAmong_iff, Bool.not_eq_true]

theorem length_le_of_nodup {ids : List Identity} (hnodup : ids.Nodup) (hsubset : ids ⊆ known) :
    ids.length ≤ known.dedup.length :=
  (List.subperm_of_subset hnodup fun _ hid => List.mem_dedup.2 (hsubset hid)).length_le

theorem chainUpTo_eq (hregistry : ∀ r, registry = some r → r.identities ⊆ known)
    (hnodup : (visited.map id).Nodup) (hvisited : visited.map id ⊆ known)
    (hcount : known.dedup.length < count + visited.length) :
    chainUpTo registry count visited d = liftM (chainFrom registry visited d) := by
  induction count generalizing visited d with
  | zero =>
    have hle := length_le_of_nodup hnodup hvisited
    rw [List.length_map] at hle
    omega
  | succ count ih =>
    rw [chainFrom]
    split
    · next href => simp only [chainUpTo, href, liftM_pure]
    · next value href =>
      split
      · next hvalue => simp only [chainUpTo, href, hvalue, liftM_bind, liftM_pure]
      · next pointer hvalue =>
        split
        · simp only [chainUpTo, href, hvalue]
        · next r =>
          split
          · next error hlookup => simp only [chainUpTo, href, hvalue, hlookup]
          · next target hlookup =>
            split
            · next hseen => simp only [chainUpTo, href, hvalue, hlookup, if_pos hseen]
            · next hnew =>
              simp only [chainUpTo, href, hvalue, hlookup, if_neg hnew, liftM_bind, liftM_map]
              rw [Bool.not_eq_true, not_isAmong_iff] at hnew
              have htarget : target.id ∈ known :=
                hregistry r rfl (Registry.identities_subset_of_lookup hlookup target.id_mem_identities)
              have hnodup' : ((target :: visited).map id).Nodup := List.nodup_cons.2 ⟨hnew, hnodup⟩
              have hcount' : known.dedup.length < count + (target :: visited).length := by
                rw [List.length_cons]
                omega
              rw [ih hnodup' (List.cons_subset.2 ⟨htarget, hvisited⟩) hcount']

/-- A chain that starts at `d` has no more declarations to look at than there are identities. -/
theorem resolveUpTo_eq (hregistry : ∀ r, registry = some r → r.identities ⊆ known) (hd : d.id ∈ known)
    (hcount : known.dedup.length ≤ count) :
    d.resolveUpTo registry count = liftM (d.resolve registry) := by
  have hchain : chainUpTo registry count [d] d = liftM (d.chain registry) :=
    chainUpTo_eq hregistry (List.nodup_singleton _) (List.cons_subset.2 ⟨hd, List.nil_subset _⟩)
      (by rw [List.length_singleton]; omega)
  simp only [resolveUpTo, resolve, hchain, liftM_bind]
  refine congrArg _ (funext fun chain => ?_)
  split <;> simp only [liftM_bind, liftM_pure]

/-! ### What is imported -/

theorem identities_subset_of_mem {all : List Declaration} (h : d ∈ all) :
    d.identities ⊆ identitiesOfAll all :=
  fun _ hid => mem_identitiesOfAll.2 ⟨d, h, hid⟩

theorem identities_subset_of_child (h : child ∈ d.children) : child.identities ⊆ d.identities := by
  rw [identities_eq d]
  exact List.subset_cons_of_subset _ (identities_subset_of_mem h)

theorem identities_subset_of_chainFrom (hregistry : ∀ r, registry = some r → r.identities ⊆ known)
    (h : (chainFrom registry visited d).result = .ok chain) :
    ∀ target ∈ chain, target.identities ⊆ known :=
  forall_mem_of_chainFrom
    (fun r _ _ hr hlookup _ hid => hregistry r hr (Registry.identities_subset_of_lookup hlookup hid)) h

/-- The children of a declaration that has imported along a chain are its own, or children of a
declaration on the chain. -/
theorem child_of_importAlong (h : child ∈ (d.importAlong chain).children) :
    child ∈ d.children ∨ ∃ target ∈ chain, child ∈ target.children := by
  obtain ⟨settings, heq⟩ := d.importAlong_eq chain
  rw [heq] at h
  clear heq
  induction chain generalizing d with
  | nil => exact .inl h
  | cons target rest ih =>
    rcases ih h with hchild | ⟨other, hother, hchild⟩
    · rcases mem_or_mem_of_mem_addMissing hchild with hchild | hchild
      · exact .inl hchild
      · exact .inr ⟨target, List.mem_cons_self, hchild⟩
    · exact .inr ⟨other, List.mem_cons_of_mem _ hother, hchild⟩

/-- Resolving a declaration brings no identities but those of the registry. -/
theorem identities_subset_of_resolve (hregistry : ∀ r, registry = some r → r.identities ⊆ known)
    (hd : d.identities ⊆ known) (hresolve : (d.resolve registry).result = .ok resolved) :
    ∀ child ∈ resolved.children, child.identities ⊆ known := by
  obtain ⟨chain, hchain, rfl⟩ := resolve_eq_ok_iff.1 hresolve
  intro child hchild
  rcases child_of_importAlong hchild with hchild | ⟨target, htarget, hchild⟩
  · exact fun _ hid => hd (identities_subset_of_child hchild hid)
  · exact fun _ hid => identities_subset_of_chainFrom hregistry hchain target htarget
      (identities_subset_of_child hchild hid)

/-! ### Declarations in progress -/

/-- A traversal gives up exactly if one of its parts does. -/
theorem mapM_eq_traverse {α β : Type} {f : α → OptionT Logged β} {g : α → Logged β} {items : List α}
    (h : ∀ a ∈ items, f a = liftM (g a)) : items.mapM f = liftM (Logged.traverse g items) := by
  induction items with
  | nil => rw [List.mapM_nil, Logged.traverse, liftM_pure]
  | cons a rest ih =>
    have hrest : rest.mapM f = liftM (Logged.traverse g rest) :=
      ih fun b hb => h b (List.mem_cons_of_mem _ hb)
    rw [List.mapM_cons, Logged.traverse, h a List.mem_cons_self, hrest, liftM_bind]
    simp only [map_eq_pure_bind, liftM_bind, liftM_pure]

/-- What is done next need only not give up on the result that there is. -/
theorem liftM_bind_of_result {α β : Type} {x : Logged α} {f : α → OptionT Logged β} {g : α → Logged β}
    (h : ∀ a, x.result = .ok a → f a = liftM (g a)) : liftM x >>= f = liftM (x >>= g) := by
  have hrun : ∀ k : α → OptionT Logged β, (liftM x >>= k).run = x >>= fun a => (k a).run := by
    intro k
    simp
  rw [liftM_bind]
  refine OptionT.ext ?_
  rw [hrun, hrun]
  exact Logged.bind_congr_of_result fun a ha => by rw [h a ha]

/-- `expandWithin` keeps the identities that are left, `expandUpTo` the declarations in progress: what
is not in progress is left. -/
theorem expandUpTo_eq {fresh : List Identity} (hregistry : ∀ r, registry = some r → r.identities ⊆ known)
    (hd : d.identities ⊆ known) (hfresh : ∀ i, i ∈ fresh ↔ i ∈ known ∧ i ∉ above.map id)
    (hnodup : (above.map id).Nodup) (habove : above.map id ⊆ known)
    (hcount : known.dedup.length ≤ count) (hdepth : known.dedup.length < depth + above.length) :
    expandUpTo registry count depth above d =
      liftM (expandWithin registry fresh (above.map name) d) := by
  induction depth generalizing fresh above d with
  | zero =>
    have hle := length_le_of_nodup hnodup habove
    rw [List.length_map] at hle
    omega
  | succ depth ih =>
    have hmem : d.id ∈ known := hd d.id_mem_identities
    rw [expandUpTo, expandWithin]
    cases hseen : d.isAmong above with
    | true =>
      have hstale : d.id ∉ fresh := fun h => ((hfresh _).1 h).2 (isAmong_iff.1 hseen)
      rw [if_pos rfl, dif_neg hstale, List.map_append, List.map_singleton]
    | false =>
      have hnew : d.id ∉ above.map id := not_isAmong_iff.1 hseen
      rw [if_neg Bool.false_ne_true, dif_pos ((hfresh _).2 ⟨hmem, hnew⟩),
        resolveUpTo_eq hregistry hmem hcount]
      refine liftM_bind_of_result fun resolved hresolve => ?_
      cases hpointer : resolved.settings.pointer? .proxy with
      | some pointer => simp only [liftM_bind, liftM_pure]
      | none =>
        have hsubset := identities_subset_of_resolve hregistry hd hresolve
        have hleft : ∀ i, i ∈ d.id.without fresh ↔ i ∈ known ∧ i ∉ (above ++ [d]).map id := by
          intro i
          rw [Identity.mem_without, hfresh, List.map_append, List.map_singleton, List.mem_append,
            List.mem_singleton, not_or, and_assoc]
        have hnodup' : ((above ++ [d]).map id).Nodup := by
          rw [List.map_append, List.map_singleton, ← List.concat_eq_append]
          exact hnodup.concat hnew
        have habove' : (above ++ [d]).map id ⊆ known := by
          rw [List.map_append, List.map_singleton]
          exact List.append_subset.2 ⟨habove, List.cons_subset.2 ⟨hmem, List.nil_subset _⟩⟩
        have hdepth' : known.dedup.length < depth + (above ++ [d]).length := by
          rw [List.length_append, List.length_singleton]
          omega
        have hchildren : resolved.children.mapM (expandUpTo registry count depth (above ++ [d])) =
            liftM (Logged.traverse (fun child => expandWithin registry (d.id.without fresh)
              (above.map name ++ [d.name]) child) resolved.children) := by
          refine mapM_eq_traverse fun child hchild => ?_
          rw [ih (hsubset child hchild) hleft hnodup' habove' hdepth', List.map_append,
            List.map_singleton]
        simp only [hchildren, liftM_bind, liftM_pure]

/-- The limits may be any that the identities of `d` and of the registry fit in. -/
theorem expandUpTo_eq_expand
    (hcount : (d.identities ++ (registry.map Registry.identities).getD []).dedup.length ≤ count)
    (hdepth : (d.identities ++ (registry.map Registry.identities).getD []).dedup.length < depth) :
    d.expandUpTo registry count depth [] = liftM (d.expand registry) := by
  refine expandUpTo_eq ?_ (List.subset_append_left _ _) (fun i => ?_) List.nodup_nil
    (List.nil_subset _) hcount hdepth
  · rintro r rfl
    exact List.subset_append_right _ _
  · rw [List.map_nil]
    exact ⟨fun h => ⟨h, List.not_mem_nil⟩, And.left⟩

/-! ### The way down to a node -/

/-- The declarations that are expanded on the way down from `d` along some positions, `d` first. -/
inductive Descent (registry : Option Registry) : Declaration → List Nat → List Declaration → Prop where
  /-- Here, it is `d` alone. -/
  | here {d : Declaration} : Descent registry d [] [d]
  /-- Below a term, it is `d` and those below the child at the first position. -/
  | child {d resolved child : Declaration} {position : Nat} {path : List Nat}
      {trail : List Declaration} : (d.resolve registry).result = .ok resolved →
      resolved.settings.pointer? .proxy = none → resolved.children[position]? = some child →
      Descent registry child path trail → Descent registry d (position :: path) (d :: trail)

variable {fresh : List Identity} {names : List Name} {ds : List Declaration} {e : Expansion}
  {es : List Expansion} {path : List Nat} {trail : List Declaration}

/-- What can be expanded may be expanded, and each child of a term can. -/
theorem mem_of_expandWithin (h : (expandWithin registry fresh names d).result = .ok e) :
    d.id ∈ fresh := by
  by_contra hstale
  rw [expandWithin, dif_neg hstale] at h
  cases h

theorem exists_expandWithin_child (h : (expandWithin registry fresh names d).result = .ok e)
    (hresolve : (d.resolve registry).result = .ok resolved)
    (hpointer : resolved.settings.pointer? .proxy = none) (hchild : child ∈ resolved.children) :
    ∃ e', (expandWithin registry (d.id.without fresh) (names ++ [d.name]) child).result = .ok e' := by
  have hfresh := mem_of_expandWithin h
  rw [expandWithin, dif_pos hfresh, Logged.result_bind_eq_ok_iff] at h
  obtain ⟨resolved', hresolve', h⟩ := h
  obtain rfl := Except.ok.inj (hresolve'.symm.trans hresolve)
  simp only [hpointer, Logged.result_bind_eq_ok_iff, Logged.result_traverse_eq_ok_iff] at h
  obtain ⟨-, -, -, -, children, hchildren, -⟩ := h
  have hmem := hchildren ▸ List.mem_map_of_mem
    (f := fun child => (expandWithin registry (d.id.without fresh) (names ++ [d.name]) child).result) hchild
  obtain ⟨e', -, he'⟩ := List.mem_map.1 hmem
  exact ⟨e', he'.symm⟩

/-- On the way down to a node no identity is expanded twice, and only such as may be expanded are. -/
theorem nodup_of_descent (h : (expandWithin registry fresh names d).result = .ok e)
    (htrail : Descent registry d path trail) : (trail.map id).Nodup ∧ trail.map id ⊆ fresh := by
  induction htrail generalizing fresh names e with
  | @here d =>
    have hfresh : d.id ∈ fresh := mem_of_expandWithin h
    exact ⟨List.nodup_singleton _, List.cons_subset.2 ⟨hfresh, List.nil_subset _⟩⟩
  | @child d resolved child position path trail hresolve hpointer hchild _ ih =>
    have hfresh : d.id ∈ fresh := mem_of_expandWithin h
    obtain ⟨e', he'⟩ := exists_expandWithin_child h hresolve hpointer (List.mem_of_getElem? hchild)
    obtain ⟨hnodup, hsubset⟩ := ih he'
    refine ⟨List.nodup_cons.2 ⟨fun hmem => ?_, hnodup⟩, List.cons_subset.2 ⟨hfresh, fun i hi => ?_⟩⟩
    · exact (Identity.mem_without.1 (hsubset hmem)).2 rfl
    · exact (Identity.mem_without.1 (hsubset hi)).1

theorem ExpandsAll.getElem?_cases (h : ExpandsAll registry ds es) (position : Nat) :
    (ds[position]? = none ∧ es[position]? = none) ∨
      ∃ d e, ds[position]? = some d ∧ es[position]? = some e ∧ Expands registry d e := by
  induction ds generalizing es position with
  | nil =>
    cases h
    exact .inl ⟨rfl, rfl⟩
  | cons d ds ih =>
    cases h with
    | @cons _ _ e es he hes =>
      cases position with
      | zero => exact .inr ⟨d, e, rfl, rfl, he⟩
      | succ position =>
        simp only [List.getElem?_cons_succ]
        exact ih hes position

/-- A node of the tree is the tree of the declaration that is expanded last on the way down to it;
where there is no node, there is no way. -/
theorem Expands.at?_cases (h : Expands registry d e) (path : List Nat) :
    (e.at? path = none ∧ ∀ trail, ¬ Descent registry d path trail) ∨
      ∃ trail last node, Descent registry d path trail ∧ trail.getLast? = some last ∧
        e.at? path = some node ∧ Expands registry last node := by
  induction path generalizing d e with
  | nil => exact .inr ⟨[d], d, e, .here, rfl, by rw [Expansion.at?], h⟩
  | cons position path ih =>
    cases h with
    | proxy hresolve hpointer =>
      refine .inl ⟨by rw [Expansion.at?], fun trail htrail => ?_⟩
      cases htrail with
      | child hresolve' hpointer' _ _ =>
        obtain rfl := Except.ok.inj (hresolve'.symm.trans hresolve)
        cases hpointer'.symm.trans hpointer
    | @term _ resolved children hresolve hpointer hchildren =>
      rw [Expansion.at?]
      have hbelow : ∀ trail, Descent registry d (position :: path) trail → ∃ child rest,
          resolved.children[position]? = some child ∧ Descent registry child path rest := by
        intro trail htrail
        cases htrail with
        | @child _ _ child _ _ rest hresolve' _ hchild hrest =>
          obtain rfl := Except.ok.inj (hresolve'.symm.trans hresolve)
          exact ⟨child, rest, hchild, hrest⟩
      rcases hchildren.getElem?_cases position with ⟨hnone, hnone'⟩ | ⟨child, node, hchild, hnode, he⟩
      · refine .inl ⟨by rw [hnone']; rfl, fun trail htrail => ?_⟩
        obtain ⟨child, -, hchild, -⟩ := hbelow trail htrail
        cases hnone.symm.trans hchild
      · rw [hnode, Option.bind_some]
        rcases ih he with ⟨hnone, hno⟩ | ⟨trail, last, node, htrail, hlast, hat, hexpands⟩
        · refine .inl ⟨hnone, fun trail htrail => ?_⟩
          obtain ⟨other, rest, hother, hrest⟩ := hbelow trail htrail
          obtain rfl := Option.some.inj (hchild.symm.trans hother)
          exact hno rest hrest
        · refine .inr ⟨d :: trail, last, node, .child hresolve hpointer hchild htrail, ?_, hat, hexpands⟩
          rw [List.getLast?_cons, hlast, Option.getD_some]

end Declaration

/-! ### Terminologies -/

/-- The number of distinct identities of some declarations and of the registry. -/
def identityCount (registry : Option Registry) (declarations : List Declaration) : Nat :=
  (Declaration.identitiesOfAll declarations ++
    (registry.map Registry.identities).getD []).dedup.length

/-- One of the declarations has no more of them. -/
theorem identityCount_le (registry : Option Registry) {declarations : List Declaration}
    {d : Declaration} (h : d ∈ declarations) :
    (d.identities ++ (registry.map Registry.identities).getD []).dedup.length ≤
      identityCount registry declarations := by
  refine Declaration.length_le_of_nodup (List.nodup_dedup _) fun i hi => ?_
  rw [List.mem_dedup, List.mem_append] at hi
  rw [List.mem_append]
  exact hi.imp_left fun hd => Declaration.mem_identitiesOfAll.2 ⟨d, h, hd⟩

namespace Terminology

/-- Builds one root for each declaration, given up when an expansion passes the limits. -/
def buildUpTo (registry : Option Registry) (count depth : Nat) (declarations : List Declaration) :
    OptionT Logged Terminology := do
  let forest ← declarations.mapM (Declaration.expandUpTo registry count depth [])
  let t := Terminology.ofForest forest
  t.checkLinks
  Logged.notes (t.locations (List.range t.size))
  pure t

/-- Builds `d` below the term at a pointer, given up when its expansion passes the limits. -/
def graftUpTo (t : Terminology) (p : Pointer) (d : Declaration) (registry : Option Registry)
    (count depth : Nat) : OptionT Logged (Terminology × Nat) := do
  let id ← (Logged.ofExcept (t.locate none p) : Logged Nat)
  match t.term? id with
  | none => liftM (Logged.fail (α := Terminology × Nat) (.unknownTerm id))
  | some parent =>
    let e ← d.expandUpTo registry count depth []
    let grown := t.attach parent e
    grown.checkLinks
    Logged.note (.grafted d.name p)
    Logged.notes (grown.locations (List.range' t.size e.size))
    pure (grown, t.size)

variable {registry : Option Registry} {count depth : Nat}

theorem buildUpTo_eq {declarations : List Declaration} (hcount : identityCount registry declarations ≤ count)
    (hdepth : identityCount registry declarations < depth) :
    buildUpTo registry count depth declarations = liftM (build registry declarations) := by
  have hforest : declarations.mapM (Declaration.expandUpTo registry count depth []) =
      liftM (Logged.traverse (fun d => d.expand registry) declarations) := by
    refine Declaration.mapM_eq_traverse fun d hd => ?_
    have hle := identityCount_le registry hd
    exact Declaration.expandUpTo_eq_expand (Nat.le_trans hle hcount) (Nat.lt_of_le_of_lt hle hdepth)
  simp only [buildUpTo, build, hforest, liftM_bind, liftM_pure]

theorem graftUpTo_eq {d : Declaration} (hcount : identityCount registry [d] ≤ count)
    (hdepth : identityCount registry [d] < depth) (t : Terminology) (p : Pointer) :
    t.graftUpTo p d registry count depth = liftM (t.graft p d registry) := by
  have hle := identityCount_le registry (List.mem_singleton_self d)
  have hexpand := Declaration.expandUpTo_eq_expand (Nat.le_trans hle hcount) (Nat.lt_of_le_of_lt hle hdepth)
  simp only [graftUpTo, graft, hexpand, liftM_bind]
  refine congrArg _ (funext fun id => ?_)
  cases t.term? id <;> simp only [liftM_bind, liftM_pure]

end Terminology

/-- With as many declarations to look at along each chain of references as there are identities, and
one more in progress at once, nothing is given up: not when `d` is expanded on its own, nor when it is
grafted, nor when any declarations are built. The way down to a node of the tree of `d` goes through
declarations of different identities. -/
theorem Declaration.expand_within_limits (registry : Option Registry) (d : Declaration) :
    d.expandUpTo registry (identityCount registry [d]) (identityCount registry [d] + 1) [] =
      liftM (d.expand registry) ∧
    (∀ (t : Terminology) (p : Pointer),
      t.graftUpTo p d registry (identityCount registry [d]) (identityCount registry [d] + 1) =
        liftM (t.graft p d registry)) ∧
    (∀ declarations, Terminology.buildUpTo registry (identityCount registry declarations)
      (identityCount registry declarations + 1) declarations =
        liftM (Terminology.build registry declarations)) ∧
    ∀ e, (d.expand registry).result = .ok e → ∀ path,
      ((e.at? path).isSome ↔ ∃ trail, Descent registry d path trail) ∧
      ∀ trail, Descent registry d path trail → (trail.map Declaration.id).Nodup := by
  have hle := identityCount_le registry (List.mem_singleton_self d)
  refine ⟨expandUpTo_eq_expand hle (Nat.lt_succ_of_le hle),
    Terminology.graftUpTo_eq (Nat.le_refl _) (Nat.lt_succ_self _),
    fun declarations => Terminology.buildUpTo_eq (Nat.le_refl _) (Nat.lt_succ_self _),
    fun e he path => ⟨?_, fun trail htrail => (nodup_of_descent he htrail).1⟩⟩
  rcases (expands_of_expandWithin he).at?_cases path with
    ⟨hnone, hno⟩ | ⟨trail, -, node, htrail, -, hnode, -⟩
  · rw [hnone]
    exact ⟨nofun, fun ⟨trail, htrail⟩ => absurd htrail (hno trail)⟩
  · rw [hnode]
    exact ⟨fun _ => ⟨trail, htrail⟩, fun _ => rfl⟩

namespace Terminology.Sample

/-- A person, who has the children of a name. -/
def person : Declaration :=
  declaration 5 "person" [(.reference, .pointer (pointer ["name"]))] []

/-- The person has an identity of the registry, which has seven, so eight declarations in progress at
once are always enough. On the way down to the text of the role, three are. -/
theorem expand_person_within_limits : identityCount (some registry) [person] = 7 ∧
    person.expandUpTo (some registry) 7 8 [] = liftM (person.expand (some registry)) ∧
    ∃ e trail, (person.expand (some registry)).result = .ok e ∧
      (e.at? [1, 0]).map Expansion.name = some ⟨"text"⟩ ∧
      Declaration.Descent (some registry) person [1, 0] trail ∧ (trail.map Declaration.id).Nodup := by
  have hcount : identityCount (some registry) [person] = 7 := by decide +kernel
  have hname : ((person.expand (some registry)).result.toOption.bind (·.at? [1, 0])).map
      Expansion.name = some ⟨"text"⟩ := by decide +kernel
  obtain ⟨hlimits, -, -, hpaths⟩ := Declaration.expand_within_limits (some registry) person
  rw [hcount] at hlimits
  cases hexpand : (person.expand (some registry)).result with
  | error error =>
    rw [hexpand] at hname
    cases hname
  | ok e =>
    rw [hexpand] at hname
    have hat : (e.at? [1, 0]).map Expansion.name = some ⟨"text"⟩ := hname
    obtain ⟨hway, hnodup⟩ := hpaths e hexpand [1, 0]
    obtain ⟨trail, htrail⟩ := hway.1 (by rw [← Option.isSome_map, hat]; rfl)
    exact ⟨hcount, hlimits, e, trail, rfl, hat, htrail, hnodup trail htrail⟩

end Terminology.Sample

end TermAtlas
