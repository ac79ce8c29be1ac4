import TermAtlas.Terminology.InPlace

/-!
# Undoing

A graft in place that fails has done one of three things: nothing, when its pointer leads nowhere; it
has added some nodes, when a declaration below cannot be built; or it has added a whole tree and entered
it below its parent, when a proxy then leads nowhere. Construction adds behind all nodes that were there,
so that these are what is left when the terminology is cut back to its old size, and what was entered is
exactly what is taken back.

## What is proved

* `reinstate_enter` — an entry is taken back without a trace, also from the order of the children.
* `spares_constructWithin` — construction touches no node that was there before.
* `Restores.bind` — how a sequence leaves a given terminology behind whenever it fails.
* `Terminology.eq_of_graftInPlace_error` — a graft in place that fails leaves the terminology as it was.
-/

namespace TermAtlas

namespace Terminology

variable {t : Terminology} {size id : Nat}

theorem truncate_size (t : Terminology) : t.truncate t.size = t := by
  unfold truncate size
  rw [List.take_length]

theorem size_enter (t : Terminology) (id : Nat) (link : Link) : (t.enter id link).size = t.size :=
  List.length_modify ..

/-- What is entered below a new node does not show among the old ones. -/
theorem truncate_enter (hle : size ≤ id) (link : Link) :
    (t.enter id link).truncate size = t.truncate size := by
  have hlength : (t.nodes.take size).length ≤ id := by
    rw [List.length_take]
    omega
  unfold truncate enter
  rw [List.take_modify, List.modify_eq_self hlength]

/-- What undoes adopting a child undoes entering it. -/
theorem modify_enter {link : Link} (undo : Node → Node)
    (hundo : ∀ node, t.node? id = some node → undo (node.adopt link) = node) :
    { t.enter id link with nodes := (t.enter id link).nodes.modify id undo } = t := by
  refine ext_node? rfl fun other => ?_
  rw [node?_modify, enter, node?_modify, Option.map_map]
  cases hnode : t.node? other with
  | none => rfl
  | some node =>
    by_cases hother : other = id
    · subst hother
      simp [hundo node hnode]
    · simp [hother]

theorem child?_of_node? {term : Term} (h : t.node? id = some (.term term)) (name : Name) :
    t.child? (some id) name = (Roster.find? name term.children).map Link.node := by
  rw [child?, scope_of_term? (term?_of_node? h)]

/-- A child that was entered is taken back, and one that it replaced is entered in its old place. -/
theorem reinstate_enter (t : Terminology) (id : Nat) (link : Link) :
    (t.enter id link).reinstate id link.name (t.child? (some id) link.name) = t := by
  cases hchild : t.child? (some id) link.name with
  | some old =>
    refine modify_enter (·.adopt ⟨link.name, old⟩) fun node hnode => ?_
    cases node with
    | proxy proxy => rfl
    | term term =>
      rw [child?_of_node? hnode, Option.map_eq_some_iff] at hchild
      obtain ⟨found, hfound, rfl⟩ := hchild
      have hname : found.name = link.name := Roster.name_of_find? hfound
      have hput : Roster.put found (Roster.put link term.children) = term.children :=
        Roster.put_put_of_find? hfound
      show Node.term ((term.adopt link).adopt ⟨link.name, found.node⟩) = Node.term term
      rw [← hname]
      unfold Term.adopt
      rw [hput]
  | none =>
    refine modify_enter (·.abandon link.name) fun node hnode => ?_
    cases node with
    | proxy proxy => rfl
    | term term =>
      rw [child?_of_node? hnode, Option.map_eq_none_iff] at hchild
      have hwithout : Roster.without link.name (Roster.put link term.children) = term.children :=
        Roster.without_put hchild
      show Node.term { term with children := Roster.without link.name (Roster.put link term.children) } =
        Node.term term
      rw [hwithout]

end Terminology

namespace Work

variable {α β : Type} {size : Nat} {x : Work α} {f : α → Work β} {Q : α → Prop} {R : β → Prop}
  {t u : Terminology}

/-! ### Work on new nodes -/

/-- Work that touches neither the roots nor the first `size` nodes of a terminology that has so many,
whether it fails or not, and whose result has `Q`. -/
def Spares (size : Nat) (x : Work α) (Q : α → Prop) : Prop :=
  ∀ t : Terminology, size ≤ t.size →
    size ≤ (x.state t).size ∧ (x.state t).truncate size = t.truncate size ∧
      ∀ a, (x.outcome t).result = .ok a → Q a

theorem spares_pure {a : α} (ha : Q a) : Spares size (pure a) Q := by
  intro t hle
  refine ⟨hle, rfl, ?_⟩
  rintro _ ⟨⟩
  exact ha

theorem spares_ofLogged (x : Logged α) : Spares size (ofLogged x) fun _ => True := by
  intro t hle
  exact ⟨hle, rfl, fun _ _ => trivial⟩

/-- A node that is added has a new number. -/
theorem spares_add (node : Nat → Node) : Spares size (add node) (size ≤ ·) := by
  intro t hle
  refine ⟨?_, ?_, ?_⟩
  · unfold Terminology.size at hle ⊢
    rw [state_add, List.length_append]
    omega
  · unfold Terminology.truncate
    rw [state_add, List.take_append_of_le_length hle]
  · rintro _ ⟨⟩
    exact hle

/-- Entering something below a new node touches no old node. -/
theorem spares_enter {id : Nat} (hid : size ≤ id) (link : Link) :
    Spares size (change (·.enter id link)) fun _ => True := by
  intro t hle
  refine ⟨?_, Terminology.truncate_enter hid link, fun _ _ => trivial⟩
  rw [state_change, Terminology.size_enter]
  exact hle

/-- Whatever is done next may rely on the result of what was done before. -/
theorem Spares.bind (hx : Spares size x Q) (hf : ∀ a, Q a → Spares size (f a) R) :
    Spares size (x >>= f) R := by
  intro t hle
  obtain ⟨hsize, hsame, hresult⟩ := hx t hle
  cases hok : (x.outcome t).result with
  | error e =>
    rw [state_bind_of_error hok]
    refine ⟨hsize, hsame, ?_⟩
    intro b hb
    obtain ⟨a, ha, -⟩ := Logged.result_bind_eq_ok_iff.1 (outcome_bind x f t ▸ hb)
    rw [hok] at ha
    cases ha
  | ok a =>
    obtain ⟨hsize', hsame', hresult'⟩ := hf a (hresult a hok) (x.state t) hsize
    rw [state_bind_of_ok hok]
    refine ⟨hsize', hsame'.trans hsame, ?_⟩
    intro b hb
    obtain ⟨a', ha', hb⟩ := Logged.result_bind_eq_ok_iff.1 (outcome_bind x f t ▸ hb)
    obtain rfl := Except.ok.inj (hok.symm.trans ha')
    exact hresult' b hb

theorem spares_forEach {f : α → Work Unit} (hf : ∀ a, Spares size (f a) fun _ => True)
    (items : List α) : Spares size (forEach f items) fun _ => True := by
  induction items with
  | nil => exact spares_pure trivial
  | cons a rest ih => exact (hf a).bind fun _ _ => ih

/-- Construction touches no node that was there before, and gives the number of a new one. -/
theorem spares_constructWithin (registry : Option Registry) (parent : Option Nat)
    (fresh : List Identity) (above : List Name) (d : Declaration) :
    Spares size (d.constructWithin registry parent fresh above) (size ≤ ·) := by
  induction parent, fresh, above, d using Declaration.constructWithin.induct with
  | case1 parent fresh above d hfresh ih =>
    rw [Declaration.constructWithin_of_mem hfresh]
    refine (spares_ofLogged _).bind fun resolved _ => ?_
    cases resolved.settings.pointer? .proxy with
    | some pointer => exact (spares_ofLogged _).bind fun _ _ => spares_add _
    | none =>
      refine (spares_ofLogged _).bind fun _ _ => (spares_ofLogged _).bind fun _ _ => ?_
      refine (spares_add _).bind fun id hid => ?_
      refine (spares_forEach (fun child => ?_) resolved.children).bind fun _ _ => spares_pure hid
      exact (ih id child).bind fun below _ => spares_enter hid ⟨child.name, below⟩
  | case2 parent fresh above d hfresh =>
    rw [Declaration.constructWithin, dif_neg hfresh]
    intro t hle
    refine ⟨hle, rfl, ?_⟩
    rintro a ⟨⟩

/-- What construction has added can be dropped again, also when it has come to nothing. -/
theorem truncate_construct (d : Declaration) (registry : Option Registry) (parent : Nat)
    (t : Terminology) : ((d.construct registry parent).state t).truncate t.size = t := by
  have hspares := spares_constructWithin registry (some parent)
    (d.identities ++ (registry.map Registry.identities).getD []) [] d t (Nat.le_refl t.size)
  exact hspares.2.1.trans t.truncate_size

/-! ### Work that fails -/

/-- If the work fails on `t`, it leaves `u` behind. -/
def Restores (x : Work α) (t u : Terminology) : Prop :=
  ∀ e, (x.outcome t).result = .error e → x.state t = u

theorem restores_ofLogged (x : Logged α) (t : Terminology) : (ofLogged x).Restores t t :=
  fun _ _ => rfl

/-- What never fails restores anything. -/
theorem restores_of_ok {a : α} (h : (x.outcome t).result = .ok a) : x.Restores t u := by
  intro e he
  cases h.symm.trans he

theorem restores_orUndo {undo : Terminology → Terminology} (h : undo (x.state t) = u) :
    (x.orUndo undo).Restores t u := by
  intro e he
  rw [outcome_orUndo] at he
  rw [state_orUndo_of_error he, h]

/-- A sequence restores what each of its steps restores, from where it is then. -/
theorem Restores.bind (hx : x.Restores t u)
    (hf : ∀ a, (x.outcome t).result = .ok a → (f a).Restores (x.state t) u) :
    (x >>= f).Restores t u := by
  intro e he
  rw [outcome_bind, Logged.result_bind] at he
  cases hok : (x.outcome t).result with
  | error e' =>
    rw [state_bind_of_error hok]
    exact hx e' hok
  | ok a =>
    rw [hok] at he
    rw [state_bind_of_ok hok]
    exact hf a hok e he

/-- What is built below a term and fails leaves the terminology as it was. -/
theorem state_attach_of_error {p : Pointer} {d : Declaration} {registry : Option Registry} {e : Error}
    (h : ((attach p d registry).outcome t).result = .error e) : (attach p d registry).state t = t := by
  have hrestores : (attach p d registry).Restores t t := by
    unfold attach
    refine (restores_of_ok (outcome_current t ▸ Logged.result_pure t)).bind ?_
    rintro _ ⟨⟩
    refine (restores_ofLogged _ t).bind fun parent _ => ?_
    rw [state_ofLogged]
    have hconstruct := truncate_construct d registry parent t
    refine (restores_orUndo hconstruct).bind fun id hid => ?_
    rw [outcome_orUndo] at hid
    rw [state_orUndo_of_ok hid]
    refine (restores_of_ok (outcome_enter parent _ _ ▸ Logged.result_pure _)).bind ?_
    rintro _ ⟨⟩
    refine Restores.bind (restores_orUndo ?_) fun _ _ => ?_
    · rw [state_checkLinks, state_enter, Terminology.reinstate_enter, hconstruct]
    · -- recording the graft cannot fail
      exact restores_of_ok (a := id) rfl
  exact hrestores e h

end Work

/-- A graft in place that fails leaves the terminology as it was. -/
theorem Terminology.eq_of_graftInPlace_error {t left : Terminology} {p : Pointer} {d : Declaration}
    {registry : Option Registry} {log : List Event} {e : Error}
    (h : (⟨log, .error e⟩, left) ∈ t.graftInPlace p d registry) : left = t := by
  obtain ⟨houtcome, rfl⟩ := Work.result_of_mem_thenUnwind h
  exact Work.state_attach_of_error (e := e) (by rw [houtcome])

end TermAtlas
