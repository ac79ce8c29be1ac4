import TermAtlas.Proofs.Agreement
import TermAtlas.Proofs.Effects

/-!
# Edits at a pointer

A registry is read through pointers, and changed through pointers. The way down is gone twice: by `lookup`, which
stops at what it finds, and by `edit`, which also puts every declaration on the way back into its place. Both go the
same way, and an edit is confined to it: it is as if only the declaration at the end of the way were another one.

All roots are looked at as the children of one declaration above them (`Registry.top`). So a pointer that is not
empty is a way down from there, and all that is said about ways down from a declaration (`descend`, `changeAt`) holds
of pointers into a registry.

## What is proved

* `Declaration.descend_eq_error_iff` — which name is reported as missing.
* `Declaration.changeAt_append` — a change below a declaration is a change of what is found there.
* `Declaration.descend_changeAt_of_apart` — a change does not reach what is neither above nor below.
* `Registry.lookup_edit` — what look-ups find, and what they find after an edit.
-/

namespace TermAtlas

namespace Declaration

/-- What there is to a declaration without its descendants. -/
structure Face where
  id : Identity
  name : Name
  settings : Settings
  /-- The names of the children, in order. -/
  children : List Name

/-- The declaration without its descendants. -/
def face (d : Declaration) : Face := ⟨d.id, d.name, d.settings, Roster.names d.children⟩

variable {change : Declaration → Declaration} {d d' child target : Declaration} {name missing : Name}
  {names front back other : List Name} {edits : List Edit}

/-! ### The way down -/

theorem descend_cons_of_child (h : d.child? name = some child) (names : List Name) :
    descend (name :: names) d = descend names child := by
  rw [descend, h]

theorem descend_cons_of_none (h : d.child? name = none) (names : List Name) :
    descend (name :: names) d = .error name := by
  rw [descend, h]

theorem changeAt_cons_of_child (h : d.child? name = some child) (names : List Name) :
    changeAt change (name :: names) d = (changeAt change names child).map d.adopt := by
  rw [changeAt, h]
  dsimp only
  cases changeAt change names child <;> rfl

theorem changeAt_cons_of_none (h : d.child? name = none) (names : List Name) :
    changeAt change (name :: names) d = .error name := by
  rw [changeAt, h]

/-- The children are found by one more name each. -/
theorem descend_append (front back : List Name) (d : Declaration) :
    descend (front ++ back) d = (descend front d).bind (descend back) := by
  induction front generalizing d with
  | nil => rfl
  | cons name front ih =>
    rw [List.cons_append]
    cases hchild : d.child? name with
    | none => rw [descend_cons_of_none hchild, descend_cons_of_none hchild]; rfl
    | some child => rw [descend_cons_of_child hchild, descend_cons_of_child hchild, ih]

/-- The missing name is the first one that is not there: those before it lead to a declaration that has no child of
this name. -/
theorem descend_eq_error_iff : descend names d = .error missing ↔ ∃ front back target,
    names = front ++ missing :: back ∧ descend front d = .ok target ∧ target.child? missing = none := by
  constructor
  · intro h
    induction names generalizing d with
    | nil => cases h
    | cons name names ih =>
      cases hchild : d.child? name with
      | none =>
        rw [descend_cons_of_none hchild] at h
        obtain rfl := Except.error.inj h
        exact ⟨[], names, d, rfl, rfl, hchild⟩
      | some child =>
        rw [descend_cons_of_child hchild] at h
        obtain ⟨front, back, target, rfl, hfront, hnone⟩ := ih h
        exact ⟨name :: front, back, target, rfl, by rwa [descend_cons_of_child hchild], hnone⟩
  · rintro ⟨front, back, target, rfl, hfront, hnone⟩
    rw [descend_append, hfront]
    exact descend_cons_of_none hnone back

/-- A change goes down the same way, and stops at the same name. -/
theorem concur_changeAt (change : Declaration → Declaration) (names : List Name) (d : Declaration) :
    Concur (fun _ _ => True) (descend names d) (changeAt change names d) := by
  induction names generalizing d with
  | nil => exact .ok trivial
  | cons name names ih =>
    cases hchild : d.child? name with
    | none =>
      rw [descend_cons_of_none hchild, changeAt_cons_of_none hchild]
      exact .error name
    | some child =>
      rw [descend_cons_of_child hchild, changeAt_cons_of_child hchild]
      have hchanged := ih child
      generalize descend names child = x at hchanged
      generalize changeAt change names child = y at hchanged
      cases hchanged with
      | error missing => exact .error missing
      | ok => exact .ok trivial

/-! ### The change -/

theorem changeAt_cons_eq_ok_iff : changeAt change (name :: names) d = .ok d' ↔
    ∃ child child', d.child? name = some child ∧ changeAt change names child = .ok child' ∧
      d' = d.adopt child' := by
  cases hchild : d.child? name with
  | none =>
    rw [changeAt_cons_of_none hchild]
    exact ⟨nofun, by rintro ⟨_, _, ⟨⟩, -⟩⟩
  | some child =>
    rw [changeAt_cons_of_child hchild]
    cases hchanged : changeAt change names child with
    | error cause => exact ⟨nofun, by rintro ⟨_, _, ⟨⟩, h, -⟩; cases hchanged.symm.trans h⟩
    | ok child' =>
      constructor
      · intro h
        exact ⟨child, child', rfl, hchanged, (Except.ok.inj h).symm⟩
      · rintro ⟨_, _, ⟨⟩, h, rfl⟩
        obtain rfl := Except.ok.inj (hchanged.symm.trans h)
        rfl

theorem child?_adopt_self (h : child.name = name) (d : Declaration) : (d.adopt child).child? name = some child :=
  h ▸ Roster.find?_put_self child d.children

theorem child?_adopt_of_ne (h : child.name ≠ name) (d : Declaration) : (d.adopt child).child? name = d.child? name :=
  Roster.find?_put_of_ne h d.children

/-- A child in the place of another one of its name does not show from above. -/
theorem face_adopt (h : d.child? child.name ≠ none) : (d.adopt child).face = d.face := by
  have hmem : Named.name child ∈ Roster.names d.children :=
    Decidable.not_imp_comm.1 Roster.find?_eq_none_iff.2 h
  have hnames : Roster.names (Roster.put child d.children) = Roster.names d.children := by
    rw [Roster.names_put, if_pos hmem]
  exact congrArg (Face.mk d.id d.name d.settings) hnames

section Change

variable (hname : ∀ d, (change d).name = d.name)

include hname

theorem name_changeAt (h : changeAt change names d = .ok d') : d'.name = d.name := by
  cases names with
  | nil =>
    obtain rfl := Except.ok.inj h
    exact hname d
  | cons name names =>
    obtain ⟨_, _, -, -, rfl⟩ := changeAt_cons_eq_ok_iff.1 h
    rfl

/-- The child on the way keeps its name, so it comes back into its own place. -/
theorem exists_child_of_changeAt (h : changeAt change (name :: names) d = .ok d') :
    ∃ child child', d.child? name = some child ∧ changeAt change names child = .ok child' ∧ child'.name = name ∧
      d' = d.adopt child' := by
  obtain ⟨child, child', hchild, hchanged, rfl⟩ := changeAt_cons_eq_ok_iff.1 h
  exact ⟨child, child', hchild, hchanged, (name_changeAt hname hchanged).trans (Roster.name_of_find? hchild), rfl⟩

/-- A change further down does not show from above. -/
theorem face_changeAt (h : changeAt change (name :: names) d = .ok d') : d'.face = d.face := by
  obtain ⟨child, child', hchild, -, rfl, rfl⟩ := exists_child_of_changeAt hname h
  refine face_adopt fun hnone => ?_
  cases hchild.symm.trans hnone

/-- A change below a declaration is a change of what is found there. -/
theorem changeAt_append (h : changeAt change (front ++ back) d = .ok d') : ∃ target target',
    descend front d = .ok target ∧ changeAt change back target = .ok target' ∧ descend front d' = .ok target' := by
  induction front generalizing d d' with
  | nil => exact ⟨d, d', rfl, h, rfl⟩
  | cons name front ih =>
    obtain ⟨child, child', hchild, hchanged, hchildName, rfl⟩ := exists_child_of_changeAt hname h
    obtain ⟨target, target', hfront, hback, hfront'⟩ := ih hchanged
    refine ⟨target, target', ?_, hback, ?_⟩
    · rw [descend_cons_of_child hchild, hfront]
    · rw [descend_cons_of_child (child?_adopt_self hchildName d), hfront']

/-- What was changed is found where it was. -/
theorem descend_changeAt_self (h : changeAt change names d = .ok d') (htarget : descend names d = .ok target) :
    descend names d' = .ok (change target) := by
  rw [← List.append_nil names] at h
  obtain ⟨found, changed, hfound, hchanged, hfound'⟩ := changeAt_append hname h
  obtain rfl := Except.ok.inj (hfound.symm.trans htarget)
  obtain rfl := Except.ok.inj hchanged
  exact hfound'

/-- A change does not reach what is neither above nor below. -/
theorem descend_changeAt_of_apart (h : changeAt change names d = .ok d') (hbelow : ¬ names <+: other)
    (habove : ¬ other <+: names) : descend other d' = descend other d := by
  induction names generalizing d d' other with
  | nil => exact absurd List.nil_prefix hbelow
  | cons name names ih =>
    obtain ⟨child, child', hchild, hchanged, hchildName, rfl⟩ := exists_child_of_changeAt hname h
    cases other with
    | nil => exact absurd List.nil_prefix habove
    | cons first other =>
      by_cases hfirst : name = first
      · subst hfirst
        rw [descend_cons_of_child (child?_adopt_self hchildName d), descend_cons_of_child hchild]
        refine ih hchanged (fun hprefix => hbelow ?_) fun hprefix => habove ?_
        · exact List.cons_prefix_cons.2 ⟨rfl, hprefix⟩
        · exact List.cons_prefix_cons.2 ⟨rfl, hprefix⟩
      · -- the way turns off here, to a child that keeps its place
        have hsame : (d.adopt child').child? first = d.child? first :=
          child?_adopt_of_ne (hchildName ▸ hfirst) d
        rw [descend, descend, hsame]

/-- What is not below a change is there as before, if one does not look below. -/
theorem face_descend_changeAt (h : changeAt change names d = .ok d') (hbelow : ¬ names <+: other) :
    (descend other d').map face = (descend other d).map face := by
  by_cases habove : other <+: names
  · obtain ⟨rest, rfl⟩ := habove
    obtain ⟨target, target', htarget, hchanged, htarget'⟩ := changeAt_append hname h
    rw [htarget, htarget']
    cases rest with
    | nil => exact absurd ((List.append_nil other).symm ▸ List.prefix_rfl) hbelow
    | cons name rest => exact congrArg Except.ok (face_changeAt hname hchanged)
  · rw [descend_changeAt_of_apart hname h hbelow habove]

end Change

/-- A change that changes nothing where it happens changes nothing. -/
theorem changeAt_eq_self (htarget : descend names d = .ok target) (hchange : change target = target) :
    changeAt change names d = .ok d := by
  induction names generalizing d with
  | nil =>
    obtain rfl := Except.ok.inj htarget
    exact congrArg Except.ok hchange
  | cons name names ih =>
    cases hchild : d.child? name with
    | none =>
      rw [descend_cons_of_none hchild] at htarget
      cases htarget
    | some child =>
      rw [descend_cons_of_child hchild] at htarget
      have hself : d.adopt child = d := by
        have hfound : Roster.find? (Named.name child) d.children = some child :=
          (Roster.name_of_find? hchild).symm ▸ hchild
        cases d
        exact congrArg _ (Roster.put_of_find? hfound)
      rw [changeAt_cons_of_child hchild, ih htarget]
      exact congrArg Except.ok hself

/-- The second of two changes in the same place is made to what the first one has left there. -/
theorem changeAt_changeAt (hname : ∀ d, (change d).name = d.name) (h : changeAt change names d = .ok d')
    (next : Declaration → Declaration) (hnext : ∀ d, (next d).name = d.name) :
    changeAt next names d' = changeAt (next ∘ change) names d := by
  induction names generalizing d d' with
  | nil =>
    obtain rfl := Except.ok.inj h
    rfl
  | cons name names ih =>
    obtain ⟨child, child', hchild, hchanged, hchildName, rfl⟩ := exists_child_of_changeAt hname h
    rw [changeAt_cons_of_child (child?_adopt_self hchildName d), changeAt_cons_of_child hchild, ih hchanged]
    cases hboth : changeAt (next ∘ change) names child with
    | error missing => rfl
    | ok last =>
      have hlast : last.name = child.name := name_changeAt (fun d => (hnext _).trans (hname d)) hboth
      have hsame : Named.name child' = Named.name last :=
        hchildName.trans ((Roster.name_of_find? hchild).symm.trans hlast.symm)
      exact congrArg (fun children => Except.ok { d with children }) (Roster.put_put hsame d.children)

/-! ### Several edits -/

theorem applyAll_append (d : Declaration) (edits more : List Edit) :
    d.applyAll (edits ++ more) = (d.applyAll edits).applyAll more := List.foldl_append

@[simp]
theorem name_applyAll (d : Declaration) (edits : List Edit) : (d.applyAll edits).name = d.name := by
  induction edits generalizing d with
  | nil => rfl
  | cons edit edits ih => exact (ih _).trans (name_apply d edit)

/-- Children of other names than those added are as before. -/
theorem child?_applyAll (h : ∀ child, .adopt child ∈ edits → child.name ≠ name) (d : Declaration) :
    (d.applyAll edits).child? name = d.child? name := by
  induction edits generalizing d with
  | nil => rfl
  | cons edit edits ih =>
    refine (ih (fun child hchild => h child (List.mem_cons_of_mem _ hchild)) _).trans ?_
    cases edit with
    | set key value => rfl
    | unset key => rfl
    | adopt child => exact child?_adopt_of_ne (h child List.mem_cons_self) d

end Declaration

namespace Registry

open Declaration

variable {r r' : Registry} {p q : Pointer} {d target : Declaration} {edits : List Edit} {e : Error}

/-- All that leads up to the segment `missing` of a pointer is found, and nothing further on. -/
def Misses (r : Registry) (p : Pointer) (missing : Name) : Prop :=
  ∃ front back, p.segments = front ++ missing :: back ∧
    (∀ shorter, shorter ≠ [] → shorter <+: front → ∃ d, r.lookup ⟨shorter⟩ = .ok d) ∧
    ∀ d, r.lookup ⟨front ++ [missing]⟩ ≠ .ok d

/-- `r.EditedAt p d edits r'`: the registry `r'` is `r` but for edits of the declaration `d` at the pointer `p`. -/
structure EditedAt (r : Registry) (p : Pointer) (d : Declaration) (edits : List Edit) (r' : Registry) : Prop where
  /-- The pointer finds the declaration after the edits. -/
  self : r'.lookup p = .ok (d.applyAll edits)
  /-- This is what the edits make of it: keys that were given a value have it, keys that were taken away are gone,
  children that were added are there, all else is the same, and everything is in its place. -/
  made : d.MakesAll edits (d.applyAll edits)
  /-- The roots have the same names, in the same order. -/
  names_roots : Roster.names r'.roots = Roster.names r.roots
  /-- A pointer that does not lead through here finds a declaration that looks the same, or fails alike. -/
  face : ∀ q : Pointer, ¬ p.segments <+: q.segments → (r'.lookup q).map face = (r.lookup q).map face
  /-- Neither above nor below there is any difference. -/
  apart : ∀ q : Pointer, ¬ p.segments <+: q.segments → ¬ q.segments <+: p.segments → r'.lookup q = r.lookup q
  /-- What was below is still there, unless a child was added in its place. -/
  below : ∀ (q : Pointer) (name : Name) (rest : List Name), q.segments = p.segments ++ name :: rest →
    (∀ child, .adopt child ∈ edits → child.name ≠ name) → r'.lookup q = r.lookup q

/-! ### One declaration above the roots -/

/-- The roots as the children of one declaration. -/
def top (r : Registry) : Declaration := { (default : Declaration) with children := r.roots }

theorem eq_of_top_eq (h : r.top = r'.top) : r = r' := by
  cases r
  cases r'
  cases congrArg Declaration.children h
  rfl

theorem eq_of_map_top_eq {x y : Except Error Registry} (h : x.map top = y.map top) : x = y := by
  cases x with
  | error e => cases y with
    | error cause => exact congrArg Except.error (Except.error.inj h)
    | ok r' => cases h
  | ok r => cases y with
    | error cause => cases h
    | ok r' => exact congrArg Except.ok (eq_of_top_eq (Except.ok.inj h))

theorem lookup_of_segments_eq_nil (h : p.segments = []) : r.lookup p = .error .emptyPointer := by
  rw [lookup, fromRoot, h]

theorem lookup_eq_descend (h : p.segments ≠ []) :
    r.lookup p = (descend p.segments r.top).mapError (.noSuchTerm p) := by
  obtain ⟨segments⟩ := p
  cases segments with
  | nil => exact absurd rfl h
  | cons first rest =>
    cases hroot : Roster.find? first r.roots with
    | none =>
      rw [descend_cons_of_none (show r.top.child? first = none from hroot), lookup, fromRoot]
      simp only [hroot]
      rfl
    | some root =>
      rw [descend_cons_of_child (show r.top.child? first = some root from hroot), lookup, fromRoot]
      simp only [hroot]

theorem lookup_eq_ok_iff : r.lookup p = .ok d ↔ p.segments ≠ [] ∧ descend p.segments r.top = .ok d := by
  by_cases h : p.segments = []
  · rw [lookup_of_segments_eq_nil h]
    exact ⟨nofun, fun hne => absurd h hne.1⟩
  · rw [lookup_eq_descend h]
    cases descend p.segments r.top with
    | error missing => exact ⟨nofun, by rintro ⟨-, ⟨⟩⟩⟩
    | ok found =>
      constructor
      · intro hfound
        exact ⟨h, congrArg _ (Except.ok.inj hfound)⟩
      · rintro ⟨-, hfound⟩
        exact congrArg _ (Except.ok.inj hfound)

/-- What is found in the same way below two registries is found alike in them. -/
theorem lookup_congr (h : descend p.segments r'.top = descend p.segments r.top) : r'.lookup p = r.lookup p := by
  by_cases hp : p.segments = []
  · rw [lookup_of_segments_eq_nil hp, lookup_of_segments_eq_nil hp]
  · rw [lookup_eq_descend hp, lookup_eq_descend hp, h]

theorem map_lookup_congr {α : Type} {f : Declaration → α}
    (h : (descend p.segments r'.top).map f = (descend p.segments r.top).map f) :
    (r'.lookup p).map f = (r.lookup p).map f := by
  have hmap : ∀ x : Except Name Declaration,
      (x.mapError (Error.noSuchTerm p)).map f = (x.map f).mapError (Error.noSuchTerm p) := by
    intro x
    cases x <;> rfl
  by_cases hp : p.segments = []
  · rw [lookup_of_segments_eq_nil hp, lookup_of_segments_eq_nil hp]
  · rw [lookup_eq_descend hp, lookup_eq_descend hp, hmap, hmap, h]

theorem edit_of_segments_eq_nil (h : p.segments = []) : r.edit p edits = .error .emptyPointer := by
  rw [edit, fromRoot, h]
  rfl

/-- An edit is a change below the declaration above the roots. -/
theorem map_top_edit (h : p.segments ≠ []) : (r.edit p edits).map top =
    (changeAt (·.applyAll edits) p.segments r.top).mapError (.noSuchTerm p) := by
  obtain ⟨segments⟩ := p
  cases segments with
  | nil => exact absurd rfl h
  | cons first rest =>
    cases hroot : Roster.find? first r.roots with
    | none =>
      rw [changeAt_cons_of_none (show r.top.child? first = none from hroot), edit, fromRoot]
      simp only [hroot]
      rfl
    | some root =>
      rw [changeAt_cons_of_child (show r.top.child? first = some root from hroot), edit, fromRoot]
      simp only [hroot]
      cases changeAt (·.applyAll edits) rest root <;> rfl

/-- An edit and a look-up fail for the same reason. -/
theorem concur_edit {R : Declaration → Registry → Prop}
    (h : ∀ d r', r.lookup p = .ok d → r.edit p edits = .ok r' → R d r') :
    Concur R (r.lookup p) (r.edit p edits) := by
  by_cases hp : p.segments = []
  · rw [lookup_of_segments_eq_nil hp, edit_of_segments_eq_nil hp]
    exact .error _
  · have hconcur := (concur_changeAt (·.applyAll edits) p.segments r.top).mapError (Error.noSuchTerm p)
    rw [← lookup_eq_descend hp, ← map_top_edit hp] at hconcur
    cases hlookup : r.lookup p with
    | error e =>
      rw [hlookup] at hconcur
      cases hedit : r.edit p edits with
      | error cause =>
        rw [hedit] at hconcur
        cases hconcur
        exact .error e
      | ok r' =>
        rw [hedit] at hconcur
        cases hconcur
    | ok d =>
      rw [hlookup] at hconcur
      cases hedit : r.edit p edits with
      | error cause =>
        rw [hedit] at hconcur
        cases hconcur
      | ok r' => exact .ok (h d r' hlookup hedit)

theorem changeAt_of_edit (hp : p.segments ≠ []) (h : r.edit p edits = .ok r') :
    changeAt (·.applyAll edits) p.segments r.top = .ok r'.top := by
  have htop : (r.edit p edits).map top = _ := map_top_edit hp
  rw [h] at htop
  exact eq_ok_of_mapError htop.symm

/-! ### Look-ups -/

theorem misses_iff {missing : Name} : r.Misses p missing ↔ descend p.segments r.top = .error missing := by
  rw [descend_eq_error_iff]
  constructor
  · rintro ⟨front, back, hsegments, hfront, hmissing⟩
    have hfound : ∃ target, descend front r.top = .ok target := by
      cases front with
      | nil => exact ⟨r.top, rfl⟩
      | cons first front =>
        obtain ⟨d, hd⟩ := hfront _ (List.cons_ne_nil first front) List.prefix_rfl
        exact ⟨d, (lookup_eq_ok_iff.1 hd).2⟩
    obtain ⟨target, htarget⟩ := hfound
    refine ⟨front, back, target, hsegments, htarget, ?_⟩
    cases hchild : target.child? missing with
    | none => rfl
    | some child =>
      refine absurd (lookup_eq_ok_iff.2 ⟨by simp, ?_⟩) (hmissing child)
      rw [descend_append, htarget]
      exact descend_cons_of_child hchild []
  · rintro ⟨front, back, target, hsegments, hfront, hnone⟩
    refine ⟨front, back, hsegments, ?_, fun d hd => ?_⟩
    · rintro shorter hne ⟨rest, rfl⟩
      rw [descend_append] at hfront
      cases hshorter : descend shorter r.top with
      | error name =>
        rw [hshorter] at hfront
        cases hfront
      | ok d => exact ⟨d, lookup_eq_ok_iff.2 ⟨hne, hshorter⟩⟩
    · obtain ⟨-, hd⟩ := lookup_eq_ok_iff.1 hd
      rw [descend_append, hfront] at hd
      cases (descend_cons_of_none hnone []).symm.trans hd

/-- A look-up fails for an empty pointer, or at the first segment that is missing. -/
theorem lookup_eq_error_iff : r.lookup p = .error e ↔
    (p.segments = [] ∧ e = .emptyPointer) ∨ ∃ missing, r.Misses p missing ∧ e = .noSuchTerm p missing := by
  simp only [misses_iff]
  by_cases hp : p.segments = []
  · rw [lookup_of_segments_eq_nil hp, hp]
    constructor
    · intro h
      exact .inl ⟨rfl, (Except.error.inj h).symm⟩
    · rintro (⟨-, rfl⟩ | ⟨_, ⟨⟩, -⟩)
      rfl
  · rw [lookup_eq_descend hp, or_iff_right fun h => hp h.1]
    cases descend p.segments r.top with
    | error missing =>
      constructor
      · intro h
        exact ⟨missing, rfl, (Except.error.inj h).symm⟩
      · rintro ⟨_, ⟨⟩, rfl⟩
        rfl
    | ok d => exact ⟨nofun, by rintro ⟨_, ⟨⟩, -⟩⟩

/-- A look-up goes down from the root that the first segment names. -/
theorem lookup_eq_ok_iff_descendant : r.lookup p = .ok d ↔ ∃ first rest root, p.segments = first :: rest ∧
    Roster.find? first r.roots = some root ∧ root.descendant? ⟨rest⟩ = some d := by
  rw [lookup_eq_ok_iff]
  constructor
  · rintro ⟨hp, hdescend⟩
    obtain ⟨first, rest, hsegments⟩ := List.exists_cons_of_ne_nil hp
    rw [hsegments] at hdescend
    cases hroot : r.top.child? first with
    | none => cases (descend_cons_of_none hroot rest).symm.trans hdescend
    | some root =>
      rw [descend_cons_of_child hroot] at hdescend
      exact ⟨first, rest, root, hsegments, hroot, congrArg Except.toOption hdescend⟩
  · rintro ⟨first, rest, root, hsegments, hroot, hdescendant⟩
    have hchild : r.top.child? first = some root := hroot
    rw [hsegments, descend_cons_of_child hchild]
    refine ⟨List.cons_ne_nil _ _, ?_⟩
    rw [descendant?] at hdescendant
    cases hdescend : descend rest root with
    | error missing =>
      rw [hdescend] at hdescendant
      cases hdescendant
    | ok target =>
      rw [hdescend] at hdescendant
      exact congrArg Except.ok (Option.some.inj hdescendant)

/-! ### Edits -/

theorem editedAt_of_edit (hlookup : r.lookup p = .ok d) (hedit : r.edit p edits = .ok r') :
    r.EditedAt p d edits r' := by
  obtain ⟨hp, hdescend⟩ := lookup_eq_ok_iff.1 hlookup
  have hchanged := changeAt_of_edit hp hedit
  have hname : ∀ d : Declaration, (d.applyAll edits).name = d.name := fun d => name_applyAll d edits
  have hself : descend p.segments r'.top = .ok (d.applyAll edits) := descend_changeAt_self hname hchanged hdescend
  refine ⟨lookup_eq_ok_iff.2 ⟨hp, hself⟩, makesAll_iff.2 rfl, ?_, fun q hq => ?_, fun q hbelow habove => ?_,
    fun q name rest hq hnew => ?_⟩
  · obtain ⟨first, rest, hsegments⟩ := List.exists_cons_of_ne_nil hp
    rw [hsegments] at hchanged
    exact congrArg Face.children (face_changeAt hname hchanged)
  · exact map_lookup_congr (face_descend_changeAt hname hchanged hq)
  · exact lookup_congr (descend_changeAt_of_apart hname hchanged hbelow habove)
  · refine lookup_congr ?_
    rw [hq, descend_append, descend_append, hself, hdescend]
    show descend (name :: rest) (d.applyAll edits) = descend (name :: rest) d
    rw [descend, descend, child?_applyAll hnew]

/-- After an edit there is something at the pointer. -/
theorem exists_lookup_of_edit (hedit : r.edit p edits = .ok r') : ∃ d, r'.lookup p = .ok d := by
  have hconcur : Concur (fun _ _ => True) (r.lookup p) (r.edit p edits) := concur_edit fun _ _ _ _ => trivial
  cases hlookup : r.lookup p with
  | error e =>
    rw [hconcur.eq_error_iff.2 hlookup] at hedit
    cases hedit
  | ok d => exact ⟨_, (editedAt_of_edit hlookup hedit).self⟩

/-- An edit without changes leaves the registry as it is. -/
theorem edit_nil : r.edit p [] = (r.lookup p).map fun _ => r := by
  have hconcur : Concur (fun _ _ => True) (r.lookup p) (r.edit p []) := concur_edit fun _ _ _ _ => trivial
  cases hlookup : r.lookup p with
  | error e => exact hconcur.eq_error_iff.2 hlookup
  | ok d =>
    obtain ⟨hp, hdescend⟩ := lookup_eq_ok_iff.1 hlookup
    obtain ⟨r', hedit, -⟩ := hconcur.exists_of_ok hlookup
    have hself : changeAt (·.applyAll []) p.segments r.top = .ok r.top := changeAt_eq_self hdescend rfl
    have htop := hself.symm.trans (changeAt_of_edit hp hedit)
    rw [hedit, eq_of_top_eq (Except.ok.inj htop)]
    rfl

/-- Edits in the same place, one after the other, are one edit. -/
theorem edit_append (more : List Edit) : (r.edit p edits).bind (·.edit p more) = r.edit p (edits ++ more) := by
  by_cases hp : p.segments = []
  · rw [edit_of_segments_eq_nil hp, edit_of_segments_eq_nil hp]
    rfl
  · cases hedit : r.edit p edits with
    | error e =>
      have hlookup : r.lookup p = .error e := (concur_edit fun _ _ _ _ => trivial).eq_error_iff.1 hedit
      exact ((concur_edit fun _ _ _ _ => trivial).eq_error_iff.2 hlookup).symm
    | ok r' =>
      have happlied : (fun d : Declaration => d.applyAll (edits ++ more)) =
          (fun d => d.applyAll more) ∘ fun d => d.applyAll edits := funext fun d => applyAll_append d edits more
      refine eq_of_map_top_eq ?_
      show (r'.edit p more).map top = _
      rw [map_top_edit hp, map_top_edit hp, happlied, changeAt_changeAt (fun d => name_applyAll d edits)
        (changeAt_of_edit hp hedit) _ fun d => name_applyAll d more]

/-- Look-ups and edits obey the laws of a lens. A pointer finds the descendant of the root that its first segment
names; an empty one fails, and so does one with a segment that is missing, the first of which is reported. An edit
fails for the same reason, and otherwise the pointer finds what the edits make of the declaration, while all the
others are as they were. An edit that changes nothing leaves everything as it is, and edits in the same place, one
after the other, are one edit. -/
theorem lookup_edit (r : Registry) (p : Pointer) (edits : List Edit) :
    (r.lookup p = .error .emptyPointer ↔ p.segments = []) ∧
    (∀ d, r.lookup p = .ok d ↔ ∃ first rest root, p.segments = first :: rest ∧
      Roster.find? first r.roots = some root ∧ root.descendant? ⟨rest⟩ = some d) ∧
    (∀ e, r.lookup p = .error e ↔
      (p.segments = [] ∧ e = .emptyPointer) ∨ ∃ missing, r.Misses p missing ∧ e = .noSuchTerm p missing) ∧
    Concur (fun d r' => r.EditedAt p d edits r') (r.lookup p) (r.edit p edits) ∧
    r.edit p [] = (r.lookup p).map (fun _ => r) ∧
    ∀ more, (r.edit p edits).bind (·.edit p more) = r.edit p (edits ++ more) := by
  refine ⟨?_, fun d => lookup_eq_ok_iff_descendant, fun e => lookup_eq_error_iff,
    concur_edit fun d r' => editedAt_of_edit, edit_nil, edit_append⟩
  rw [lookup_eq_error_iff]
  constructor
  · rintro (⟨hp, -⟩ | ⟨_, -, ⟨⟩⟩)
    exact hp
  · intro hp
    exact .inl ⟨hp, rfl⟩

end Registry

end TermAtlas
