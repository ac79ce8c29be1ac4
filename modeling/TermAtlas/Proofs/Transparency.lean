import TermAtlas.Proofs.Descent

/-!
# Looking up through proxies

Following a proxy remembers which proxies are in progress, and looking a pointer up starts afresh at
each of its names. In a coherent terminology this makes no difference: every node stands for a term, a
proxy for the one that its own pointer leads to from the siblings of the proxy. So a look-up fails only
where a name is missing, it can be cut in two between any two names, and the name of a proxy can be
replaced by the pointer of the proxy.

## What is proved

* `followWithin_induction`, `followWithin_of_subset` — what is known of following, by induction on the
  proxies that are not in progress yet; fewer proxies in progress change nothing.
* `reaches_append_iff`, `Reaches.unique` — going down along names can be cut in two, and leads to one
  scope at most.
* `Coherent.follow_proxy_eq_ok_iff` — a proxy leads where its pointer leads.
* `Coherent.reaches_or_missing`, `locate_of_missing` — what stops a look-up is a missing name.
* `Reached.exists_resolveProxy_and_missing` — every node of a reached terminology stands for a term, and
  look-ups fail only because of missing names.
* `Reached.retrieveIn?_append_and_proxy` — look-ups compose, and proxies are transparent.
-/

namespace TermAtlas

instance : Append Pointer := ⟨fun p q => ⟨p.segments ++ q.segments⟩⟩

@[simp]
theorem Pointer.segments_append (p q : Pointer) : (p ++ q).segments = p.segments ++ q.segments := rfl

namespace Terminology

/-- The scope that a pointer leads to: where it starts if it has no segments, and else the children of
the term that is looked up. -/
def scopeAt? (t : Terminology) (scope : Option Nat) (p : Pointer) : Option (Option Nat) :=
  if p.isEmpty then some scope else (t.retrieveIn? scope p).map fun c => some c.id

/-- A look-up of `p` from `scope` meets the segment `missing`, and where it is then there is no such
child. -/
def Misses (t : Terminology) (scope : Option Nat) (p : Pointer) (missing : Name) : Prop :=
  ∃ front back reached, p.segments = front ++ missing :: back ∧
    t.scopeAt? scope ⟨front⟩ = some reached ∧ t.child? reached missing = none

/-- `t.Reaches scope names last`: the names lead down from `scope`, and the scope below the last stop is
`last`. -/
def Reaches (t : Terminology) (scope : Option Nat) (names : List Name) (last : Option Nat) : Prop :=
  ∃ stops, t.Leads [] scope names stops ∧ stops.getLast?.or scope = last

variable {t : Terminology} {scope middle last : Option Nat} {names more : List Name} {name : Name}
  {inProgress fewer : List Nat} {id target : Nat} {proxy : Proxy} {p : Pointer}

/-! ### Following -/

/-- What following has done: a term stands for itself, and a proxy for the last stop of its pointer. -/
theorem followWithin_cases (h : t.followWithin inProgress id = .ok target) :
    (∃ term, t.term? id = some term ∧ target = id) ∨
      ∃ proxy stops, t.node? id = some (.proxy proxy) ∧ id ∉ inProgress ∧
        t.Leads (inProgress ++ [id]) proxy.parent proxy.pointer.segments stops ∧
        stops.getLast? = some target := by
  cases hnode : t.node? id with
  | none =>
    rw [followWithin] at h
    split at h
    · cases h
    · next hterm => rw [hnode] at hterm; cases hterm
    · next hproxy => rw [hnode] at hproxy; cases hproxy
  | some node =>
    cases node with
    | term term =>
      have hterm := term?_of_node? hnode
      rw [followWithin_term hterm] at h
      exact .inl ⟨term, hterm, (Except.ok.inj h).symm⟩
    | proxy proxy =>
      obtain ⟨hid, stops, hleads, hlast⟩ := (followWithin_proxy_eq_ok_iff hnode).1 h
      exact .inr ⟨proxy, stops, rfl, hid, hleads, hlast⟩

/-- What holds of terms, and of a proxy as soon as it holds of all that is followed on its way, holds
of everything that stands for a term: there are fewer and fewer proxies that are not in progress. -/
theorem followWithin_induction {motive : List Nat → Nat → Nat → Prop}
    (hterm : ∀ inProgress id term, t.term? id = some term → motive inProgress id id)
    (hproxy : ∀ inProgress id proxy stops target, t.node? id = some (.proxy proxy) →
      id ∉ inProgress → t.Leads (inProgress ++ [id]) proxy.parent proxy.pointer.segments stops →
      stops.getLast? = some target →
      (∀ next stop, t.followWithin (inProgress ++ [id]) next = .ok stop →
        motive (inProgress ++ [id]) next stop) → motive inProgress id target)
    (h : t.followWithin inProgress id = .ok target) : motive inProgress id target := by
  induction hlength : (t.others inProgress).length using Nat.strongRecOn
    generalizing inProgress id target with
  | _ length ih =>
    rcases followWithin_cases h with ⟨term, hid, rfl⟩ | ⟨proxy, stops, hnode, hid, hleads, hlast⟩
    · exact hterm inProgress target term hid
    · have hless := length_others_lt (lt_size_of_node? hnode) hid
      refine hproxy inProgress id proxy stops target hnode hid hleads hlast ?_
      intro next stop hstop
      exact ih _ (hlength ▸ hless) hstop rfl

/-- What holds of everything that is followed on the way holds of all stops. -/
theorem Leads.forall_mem {stops : List Nat} {P : Nat → Prop}
    (h : t.Leads inProgress scope names stops)
    (hstep : ∀ next stop, t.followWithin inProgress next = .ok stop → P stop) :
    ∀ stop ∈ stops, P stop := by
  induction h with
  | nil =>
    intro stop hstop
    cases hstop
  | cons _ hfollow _ ih =>
    intro stop hstop
    rcases List.mem_cons.1 hstop with rfl | hstop
    · exact hstep _ _ hfollow
    · exact ih stop hstop

/-- Names, if there are any, lead to the last stop. -/
theorem Leads.getLast?_eq {stops : List Nat} (h : t.Leads inProgress scope names stops) (hne : names ≠ [])
    (hlast : stops.getLast?.or scope = some target) : stops.getLast? = some target := by
  cases h with
  | nil => exact absurd rfl hne
  | cons _ _ _ =>
    rw [List.getLast?_cons, Option.some_or] at hlast
    rwa [List.getLast?_cons]

/-- The names lead to the same stops if everything on the way stands for the same. -/
theorem Leads.imp {stops : List Nat} (h : t.Leads inProgress scope names stops)
    (hstep : ∀ next stop, t.followWithin inProgress next = .ok stop →
      t.followWithin fewer next = .ok stop) : t.Leads fewer scope names stops := by
  induction h with
  | nil => exact .nil
  | cons hchild hfollow _ ih => exact .cons hchild (hstep _ _ hfollow) ih

/-- What a node stands for is a term. -/
theorem exists_term_of_followWithin (h : t.followWithin inProgress id = .ok target) :
    ∃ term, t.term? target = some term := by
  refine followWithin_induction (motive := fun _ _ target => ∃ term, t.term? target = some term) ?_ ?_ h
  · intro _ id term hterm
    exact ⟨term, hterm⟩
  · intro inProgress id proxy stops target _ _ hleads hlast ih
    exact hleads.forall_mem ih target (List.mem_of_getLast? hlast)

/-- With fewer proxies in progress a node stands for the same term. -/
theorem followWithin_of_subset (h : t.followWithin inProgress id = .ok target)
    (hfewer : fewer ⊆ inProgress) : t.followWithin fewer id = .ok target := by
  refine followWithin_induction (motive := fun inProgress id target =>
    ∀ fewer, fewer ⊆ inProgress → t.followWithin fewer id = .ok target) ?_ ?_ h fewer hfewer
  · intro _ id term hterm fewer _
    exact followWithin_term hterm fewer
  · intro inProgress id proxy stops target hnode hid hleads hlast ih fewer hfewer
    refine (followWithin_proxy_eq_ok_iff hnode).2 ⟨fun hmem => hid (hfewer hmem), stops, ?_, hlast⟩
    refine hleads.imp fun next stop hstop => ih next stop hstop _ ?_
    rw [List.append_subset]
    exact ⟨fun x hx => List.mem_append_left _ (hfewer hx), List.subset_append_right _ _⟩

/-- What is resolved is the term that a node stands for. -/
theorem resolveProxy_eq_ok_iff {term : Term} : t.resolveProxy id = .ok term ↔
    ∃ target, t.follow id = .ok target ∧ t.term? target = some term := by
  rw [resolveProxy]
  cases t.follow id with
  | error e => simp
  | ok target => cases hterm : t.term? target <;> simp [hterm]

/-! ### Going down -/

@[simp]
theorem reaches_nil_iff : t.Reaches scope [] last ↔ scope = last := by
  constructor
  · rintro ⟨_, ⟨⟩, hlast⟩
    exact hlast
  · intro h
    exact ⟨[], .nil, h⟩

theorem reaches_cons_iff : t.Reaches scope (name :: names) last ↔
    ∃ next stop, t.child? scope name = some next ∧ t.follow next = .ok stop ∧
      t.Reaches (some stop) names last := by
  constructor
  · rintro ⟨_, hleads, hlast⟩
    cases hleads with
    | @cons _ _ _ next stop stops hchild hfollow hleads =>
      rw [getLast?_cons_or] at hlast
      exact ⟨next, stop, hchild, hfollow, stops, hleads, hlast⟩
  · rintro ⟨next, stop, hchild, hfollow, stops, hleads, hlast⟩
    refine ⟨stop :: stops, .cons hchild hfollow hleads, ?_⟩
    rwa [getLast?_cons_or]

/-- Going down along names can be cut in two. -/
theorem reaches_append_iff : t.Reaches scope (names ++ more) last ↔
    ∃ middle, t.Reaches scope names middle ∧ t.Reaches middle more last := by
  induction names generalizing scope with
  | nil => simp
  | cons name names ih =>
    rw [List.cons_append, reaches_cons_iff]
    constructor
    · rintro ⟨next, stop, hchild, hfollow, h⟩
      obtain ⟨middle, hmiddle, hlast⟩ := ih.1 h
      exact ⟨middle, reaches_cons_iff.2 ⟨next, stop, hchild, hfollow, hmiddle⟩, hlast⟩
    · rintro ⟨middle, hmiddle, hlast⟩
      obtain ⟨next, stop, hchild, hfollow, hmiddle⟩ := reaches_cons_iff.1 hmiddle
      exact ⟨next, stop, hchild, hfollow, ih.2 ⟨middle, hmiddle, hlast⟩⟩

/-- Names lead to one scope at most. -/
theorem Reaches.unique (h : t.Reaches scope names last) {other : Option Nat}
    (h' : t.Reaches scope names other) : other = last := by
  induction names generalizing scope with
  | nil => exact (reaches_nil_iff.1 h').symm.trans (reaches_nil_iff.1 h)
  | cons name names ih =>
    obtain ⟨next, stop, hchild, hfollow, h⟩ := reaches_cons_iff.1 h
    obtain ⟨next', stop', hchild', hfollow', h'⟩ := reaches_cons_iff.1 h'
    obtain rfl := Option.some.inj (hchild'.symm.trans hchild)
    obtain rfl := Except.ok.inj (hfollow'.symm.trans hfollow)
    exact ih h h'

/-- Names, if there are any, lead to the children of a term. -/
theorem Reaches.exists_term (h : t.Reaches scope names last) (hnames : names ≠ []) :
    ∃ target term, last = some target ∧ t.term? target = some term := by
  obtain ⟨stops, hleads, hlast⟩ := h
  cases hstops : stops.getLast? with
  | none =>
    have hlength := hleads.length_eq
    rw [List.getLast?_eq_none_iff.1 hstops] at hlength
    exact absurd (List.length_eq_zero_iff.1 hlength.symm) hnames
  | some target =>
    rw [hstops, Option.some_or] at hlast
    obtain ⟨term, hterm⟩ := hleads.forall_mem (fun _ _ => exists_term_of_followWithin) target
      (List.mem_of_getLast? hstops)
    exact ⟨target, term, hlast.symm, hterm⟩

/-- Where a pointer leads: to the scope that its names reach. -/
theorem locate_eq_ok_iff_reaches : t.locate scope p = .ok target ↔
    p.segments ≠ [] ∧ t.Reaches scope p.segments (some target) := by
  rw [locate_eq_ok_iff]
  constructor
  · rintro ⟨stops, hleads, hlast⟩
    refine ⟨?_, stops, hleads, by rw [hlast, Option.some_or]⟩
    intro hnil
    rw [hnil] at hleads
    cases hleads
    cases hlast
  · rintro ⟨hne, stops, hleads, hlast⟩
    exact ⟨stops, hleads, hleads.getLast?_eq hne hlast⟩

/-- A look-up that succeeds ends at a term. -/
theorem exists_term_of_locate (h : t.locate scope p = .ok target) :
    ∃ term, t.term? target = some term := by
  obtain ⟨hne, hreaches⟩ := locate_eq_ok_iff_reaches.1 h
  obtain ⟨_, term, ⟨⟩, hterm⟩ := hreaches.exists_term hne
  exact ⟨term, hterm⟩

/-- What is looked up: the term whose children are the scope that the names reach. -/
theorem Arranged.retrieveIn?_eq_some_iff (h : t.Arranged) {c : Term} :
    t.retrieveIn? scope p = some c ↔
      p.segments ≠ [] ∧ t.Reaches scope p.segments (some c.id) ∧ t.term? c.id = some c := by
  rw [retrieveIn?_eq_some_iff_locate]
  constructor
  · rintro ⟨target, hlocate, hterm⟩
    obtain ⟨hne, hreaches⟩ := locate_eq_ok_iff_reaches.1 hlocate
    rw [h.id_of_term? hterm]
    exact ⟨hne, hreaches, hterm⟩
  · rintro ⟨hne, hreaches, hterm⟩
    exact ⟨c.id, locate_eq_ok_iff_reaches.2 ⟨hne, hreaches⟩, hterm⟩

/-- The scope that a pointer leads to is the one that its names reach. -/
theorem Arranged.scopeAt?_eq_some_iff (h : t.Arranged) :
    t.scopeAt? scope p = some last ↔ t.Reaches scope p.segments last := by
  obtain ⟨names⟩ := p
  cases names with
  | nil => simp [scopeAt?, Pointer.isEmpty]
  | cons name names =>
    rw [scopeAt?, if_neg (by simp [Pointer.isEmpty]), Option.map_eq_some_iff]
    constructor
    · rintro ⟨c, hc, rfl⟩
      exact (h.retrieveIn?_eq_some_iff.1 hc).2.1
    · intro hreaches
      obtain ⟨target, term, rfl, hterm⟩ := hreaches.exists_term (List.cons_ne_nil _ _)
      have hid := h.id_of_term? hterm
      subst hid
      exact ⟨term, h.retrieveIn?_eq_some_iff.2 ⟨List.cons_ne_nil _ _, hreaches, hterm⟩, rfl⟩

/-! ### Proxies -/

/-- A proxy leads where its pointer leads from the siblings of the proxy. -/
theorem Coherent.follow_proxy_eq_ok_iff (h : t.Coherent) (hnode : t.node? id = some (.proxy proxy)) :
    t.follow id = .ok target ↔ t.locate proxy.parent proxy.pointer = .ok target := by
  -- what is in progress while the pointer is walked only matters where following goes wrong
  have hlocate : ∀ target, t.follow id = .ok target →
      t.locate proxy.parent proxy.pointer = .ok target := by
    intro target hfollow
    obtain ⟨-, stops, hleads, hlast⟩ := (followWithin_proxy_eq_ok_iff hnode).1 hfollow
    refine locate_eq_ok_iff.2 ⟨stops, hleads.imp fun next stop hstop => ?_, hlast⟩
    exact followWithin_of_subset hstop (List.nil_subset _)
  constructor
  · exact hlocate target
  · intro htarget
    obtain ⟨found, -, hfollow, -⟩ := h.exists_follow hnode
    have hfound := hlocate found hfollow
    obtain rfl := Except.ok.inj (hfound.symm.trans htarget)
    exact hfollow

/-- The name of a proxy and the pointer of the proxy lead to the same scope. -/
theorem Coherent.reaches_proxy_iff (h : t.Coherent) (hchild : t.child? scope name = some id)
    (hnode : t.node? id = some (.proxy proxy)) :
    t.Reaches scope [name] last ↔ t.Reaches scope proxy.pointer.segments last := by
  obtain ⟨link, hlink, -, rfl⟩ := exists_link_of_child? hchild
  obtain rfl : proxy.parent = scope := h.parent_of_mem_scope hlink hnode
  obtain ⟨target, -, hfollow, -⟩ := h.exists_follow hnode
  obtain ⟨-, hpointer⟩ := locate_eq_ok_iff_reaches.1 ((h.follow_proxy_eq_ok_iff hnode).1 hfollow)
  have hname : t.Reaches proxy.parent [name] (some target) :=
    reaches_cons_iff.2 ⟨link.node, target, hchild, hfollow, reaches_nil_iff.2 rfl⟩
  constructor
  · intro hlast
    rwa [hname.unique hlast]
  · intro hlast
    rwa [hpointer.unique hlast]

/-- Behind any names, the name of a proxy and the pointer of the proxy lead to the same scope. -/
theorem Coherent.reaches_append_proxy_iff (h : t.Coherent) {reached : Option Nat}
    (hreaches : t.Reaches scope names reached) (hchild : t.child? reached name = some id)
    (hnode : t.node? id = some (.proxy proxy)) :
    t.Reaches scope (names ++ [name]) last ↔
      t.Reaches scope (names ++ proxy.pointer.segments) last := by
  rw [reaches_append_iff, reaches_append_iff]
  constructor
  · rintro ⟨middle, hmiddle, hlast⟩
    obtain rfl := hreaches.unique hmiddle
    exact ⟨middle, hmiddle, (h.reaches_proxy_iff hchild hnode).1 hlast⟩
  · rintro ⟨middle, hmiddle, hlast⟩
    obtain rfl := hreaches.unique hmiddle
    exact ⟨middle, hmiddle, (h.reaches_proxy_iff hchild hnode).2 hlast⟩

/-- Looking up in two parts: the second one starts from the term that the first one finds. -/
theorem Arranged.retrieveIn?_append (h : t.Arranged) {q : Pointer} (hp : p.segments ≠ [])
    (hq : q.segments ≠ []) : t.retrieveIn? scope (p ++ q) =
      (t.retrieveIn? scope p).bind fun c => t.retrieveFrom? c.id q := by
  ext c
  simp only [Option.bind_eq_some_iff, retrieveFrom?, h.retrieveIn?_eq_some_iff,
    Pointer.segments_append, reaches_append_iff]
  constructor
  · rintro ⟨-, ⟨middle, hmiddle, hlast⟩, hterm⟩
    obtain ⟨target, between, rfl, hbetween⟩ := hmiddle.exists_term hp
    have hid := h.id_of_term? hbetween
    subst hid
    exact ⟨between, ⟨hp, hmiddle, hbetween⟩, hq, hlast, hterm⟩
  · rintro ⟨between, ⟨-, hmiddle, -⟩, -, hlast, hterm⟩
    exact ⟨List.append_ne_nil_of_left_ne_nil hp _, ⟨some between.id, hmiddle, hlast⟩, hterm⟩

/-- Pointers that reach the same scopes find the same term. -/
theorem Arranged.retrieveIn?_congr (h : t.Arranged) {q : Pointer} (hp : p.segments ≠ [])
    (hq : q.segments ≠ [])
    (hreaches : ∀ last, t.Reaches scope p.segments last ↔ t.Reaches scope q.segments last) :
    t.retrieveIn? scope p = t.retrieveIn? scope q := by
  ext c
  simp only [h.retrieveIn?_eq_some_iff, hreaches, hp, hq, ne_eq, not_false_eq_true]

/-! ### Missing names -/

theorem descend_cons {step : Option Nat → Name → Except Error Nat} {first : Name} {rest : List Name} :
    descend step scope first (name :: rest) =
      step scope first >>= fun stop => descend step (some stop) name rest := by
  simp only [descend, List.foldlM_cons]

/-- Going down stops where the first name is missing. -/
theorem descend_of_missing {step : Option Nat → Name → Except Error Nat} {first missing : Name}
    {rest front back : List Name} {reached : Option Nat} {e : Error}
    (hok : ∀ scope name next stop, t.child? scope name = some next → t.follow next = .ok stop →
      step scope name = .ok stop)
    (hmissing : step reached missing = .error e) (hreaches : t.Reaches scope front reached)
    (hnames : first :: rest = front ++ missing :: back) : descend step scope first rest = .error e := by
  induction front generalizing scope first rest with
  | nil =>
    obtain rfl := reaches_nil_iff.1 hreaches
    obtain ⟨rfl, rfl⟩ := List.cons.inj hnames
    rw [descend, hmissing]
    rfl
  | cons name front ih =>
    obtain ⟨next, stop, hchild, hfollow, hbelow⟩ := reaches_cons_iff.1 hreaches
    obtain ⟨rfl, hrest⟩ := List.cons.inj hnames
    cases rest with
    | nil => simp at hrest
    | cons second rest =>
      rw [descend_cons, hok scope first next stop hchild hfollow]
      exact ih hbelow hrest

/-- A pointer leads nowhere if a name is missing on the way; the error says which. -/
theorem locate_of_missing {missing : Name} {front back : List Name} {reached : Option Nat}
    (hnames : p.segments = front ++ missing :: back) (hreaches : t.Reaches scope front reached)
    (hmissing : t.child? reached missing = none) :
    t.locate scope p = .error (.noSuchTerm p missing) := by
  rw [locate]
  cases hsegments : p.segments with
  | nil =>
    rw [hsegments] at hnames
    simp at hnames
  | cons first rest =>
    refine descend_of_missing ?_ ?_ hreaches (hsegments.symm.trans hnames)
    · intro scope name next stop hchild hfollow
      rw [hchild]
      exact hfollow
    · rw [hmissing]

/-- Names lead somewhere, or one of them is missing. -/
theorem Coherent.reaches_or_missing (h : t.Coherent) (scope : Option Nat) (names : List Name) :
    (∃ last, t.Reaches scope names last) ∨
      ∃ front missing back reached, names = front ++ missing :: back ∧
        t.Reaches scope front reached ∧ t.child? reached missing = none := by
  induction names generalizing scope with
  | nil => exact .inl ⟨scope, reaches_nil_iff.2 rfl⟩
  | cons name names ih =>
    cases hchild : t.child? scope name with
    | none => exact .inr ⟨[], name, names, scope, rfl, reaches_nil_iff.2 rfl, hchild⟩
    | some next =>
      obtain ⟨link, hlink, -, rfl⟩ := exists_link_of_child? hchild
      obtain ⟨node, hnode, -, -⟩ := h.entry hlink
      obtain ⟨stop, -, hfollow, -⟩ := h.exists_follow hnode
      rcases ih (some stop) with ⟨last, hlast⟩ | ⟨front, missing, back, reached, rfl, hreaches, hnone⟩
      · exact .inl ⟨last, reaches_cons_iff.2 ⟨link.node, stop, hchild, hfollow, hlast⟩⟩
      · refine .inr ⟨name :: front, missing, back, reached, rfl, ?_, hnone⟩
        exact reaches_cons_iff.2 ⟨link.node, stop, hchild, hfollow, hreaches⟩

/-- A look-up that misses a segment says so. -/
theorem Misses.locate_eq {missing : Name} (hmisses : t.Misses scope p missing) (h : t.Arranged) :
    t.locate scope p = .error (.noSuchTerm p missing) := by
  obtain ⟨front, back, reached, hnames, hreached, hnone⟩ := hmisses
  exact locate_of_missing hnames (h.scopeAt?_eq_some_iff.1 hreached) hnone

/-- A pointer leads to a term, or it is empty, or it misses a segment. -/
theorem Coherent.locate_cases (h : t.Coherent) (scope : Option Nat) (p : Pointer) :
    (∃ c, t.locate scope p = .ok c.id ∧ t.term? c.id = some c) ∨ p.segments = [] ∨
      ∃ missing, t.Misses scope p missing := by
  by_cases hempty : p.segments = []
  · exact .inr (.inl hempty)
  · rcases h.reaches_or_missing scope p.segments with
      ⟨last, hlast⟩ | ⟨front, missing, back, reached, hnames, hreaches, hnone⟩
    · obtain ⟨target, term, rfl, hterm⟩ := hlast.exists_term hempty
      have hid := h.id_of_term? hterm
      subst hid
      exact .inl ⟨term, locate_eq_ok_iff_reaches.2 ⟨hempty, hlast⟩, hterm⟩
    · exact .inr (.inr ⟨missing, front, back, reached, hnames, h.scopeAt?_eq_some_iff.2 hreaches, hnone⟩)

theorem locate_of_empty (h : p.segments = []) : t.locate scope p = .error .emptyPointer := by
  rw [locate, h]

/-- The errors of a look-up. -/
theorem Coherent.locate_eq_error_iff (h : t.Coherent) {e : Error} :
    t.locate scope p = .error e ↔ (p.segments = [] ∧ e = .emptyPointer) ∨
      ∃ missing, t.Misses scope p missing ∧ e = .noSuchTerm p missing := by
  constructor
  · intro herror
    rcases h.locate_cases scope p with ⟨c, hlocate, -⟩ | hempty | ⟨missing, hmisses⟩
    · rw [hlocate] at herror
      cases herror
    · rw [locate_of_empty hempty] at herror
      exact .inl ⟨hempty, (Except.error.inj herror).symm⟩
    · rw [hmisses.locate_eq h.toArranged] at herror
      exact .inr ⟨missing, hmisses, (Except.error.inj herror).symm⟩
  · rintro (⟨hempty, rfl⟩ | ⟨missing, hmisses, rfl⟩)
    · exact locate_of_empty hempty
    · exact hmisses.locate_eq h.toArranged

/-- A look-up finds nothing exactly if the pointer is empty or misses a segment. -/
theorem Coherent.retrieveIn?_eq_none_iff (h : t.Coherent) :
    t.retrieveIn? scope p = none ↔ p.segments = [] ∨ ∃ missing, t.Misses scope p missing := by
  constructor
  · intro hnone
    rcases h.locate_cases scope p with ⟨c, hlocate, hterm⟩ | hfails
    · rw [retrieveIn?, hlocate] at hnone
      exact absurd (hterm.symm.trans hnone) (Option.some_ne_none c)
    · exact hfails
  · rintro (hempty | ⟨missing, hmisses⟩)
    · rw [retrieveIn?, locate_of_empty hempty]
      rfl
    · rw [retrieveIn?, hmisses.locate_eq h.toArranged]
      rfl

/-! ### Reached terminologies -/

/-- A graft whose pointer leads nowhere fails with the error of the look-up. -/
theorem result_graft_of_locate {e : Error} (hlocate : t.locate none p = .error e) (d : Declaration)
    (registry : Option Registry) : (t.graft p d registry).result = .error e := by
  rw [graft, hlocate]
  rfl

/-- Whatever was grafted, every node stands for a term, and a term stands for itself. So a look-up fails
only because the pointer is empty or misses a segment, and that is all that can be wrong with the pointer
of a graft. -/
theorem Reached.exists_resolveProxy_and_missing (h : t.Reached) :
    (∀ id node, t.node? id = some node → ∃ term, t.resolveProxy id = .ok term ∧
        t.term? term.id = some term ∧ ∀ c, node = .term c → term = c) ∧
      (∀ scope p, t.retrieveIn? scope p = none ↔
        p.segments = [] ∨ ∃ missing, t.Misses scope p missing) ∧
      (∀ scope p e, t.locate scope p = .error e ↔ (p.segments = [] ∧ e = .emptyPointer) ∨
        ∃ missing, t.Misses scope p missing ∧ e = .noSuchTerm p missing) ∧
      ∀ p d registry, (∃ parent, t.locate none p = .ok parent.id ∧ t.term? parent.id = some parent) ∨
        ∃ e, t.locate none p = .error e ∧ (t.graft p d registry).result = .error e ∧
          (e = .emptyPointer ∨ ∃ missing, e = .noSuchTerm p missing) := by
  have hcoherent := h.coherent
  refine ⟨?_, fun scope p => hcoherent.retrieveIn?_eq_none_iff,
    fun scope p e => hcoherent.locate_eq_error_iff, ?_⟩
  · intro id node hnode
    obtain ⟨target, term, hfollow, hterm⟩ := hcoherent.exists_follow hnode
    refine ⟨term, resolveProxy_eq_ok_iff.2 ⟨target, hfollow, hterm⟩, ?_, ?_⟩
    · rwa [hcoherent.id_of_term? hterm]
    · rintro c rfl
      have hself := followWithin_term (term?_of_node? hnode) []
      obtain rfl := Except.ok.inj (hself.symm.trans hfollow)
      exact Option.some.inj (hterm.symm.trans (term?_of_node? hnode))
  · intro p d registry
    rcases hcoherent.locate_cases none p with hfound | hempty | ⟨missing, hmisses⟩
    · exact .inl hfound
    · have hlocate : t.locate none p = _ := locate_of_empty hempty
      exact .inr ⟨_, hlocate, result_graft_of_locate hlocate d registry, .inl rfl⟩
    · have hlocate := hmisses.locate_eq hcoherent.toArranged
      exact .inr ⟨_, hlocate, result_graft_of_locate hlocate d registry, .inr ⟨missing, rfl⟩⟩

/-- The text of roles is found through two proxies, and has no code below it. -/
theorem Sample.resolveProxy_of_role : Sample.grafted.Reached ∧
    (∃ node, Sample.grafted.node? 10 = some node) ∧
    (∃ term, Sample.grafted.resolveProxy 10 = .ok term ∧ Sample.grafted.term? term.id = some term) ∧
    Sample.grafted.Misses none (Sample.pointer ["role", "code"]) ⟨"code"⟩ := by
  obtain ⟨hresolves, -, herror, -⟩ := Reached.exists_resolveProxy_and_missing Sample.reached_grafted
  have hsome : (Sample.grafted.node? 10).isSome := by decide +kernel
  obtain ⟨node, hnode⟩ := Option.isSome_iff_exists.1 hsome
  obtain ⟨term, hresolve, hterm, -⟩ := hresolves 10 node hnode
  have hlocate : Sample.grafted.locate none (Sample.pointer ["role", "code"]) =
      .error (.noSuchTerm (Sample.pointer ["role", "code"]) ⟨"code"⟩) := by decide +kernel
  refine ⟨Sample.reached_grafted, ⟨node, hnode⟩, ⟨term, hresolve, hterm⟩, ?_⟩
  rcases (herror none _ _).1 hlocate with ⟨hempty, -⟩ | ⟨missing, hmisses, heq⟩
  · cases hempty
  · cases heq
    exact hmisses

/-- The proxy for texts of roles that persons have. -/
def Sample.roleText : Proxy :=
  ⟨9, ⟨"roleText"⟩, some 5, Sample.pointer ["role", "text"],
    OrderedMap.ofList [(.proxy, .pointer (Sample.pointer ["role", "text"]))]⟩

/-- Looking `p ++ q` up is looking `p` up and then `q` from the term found. And where a proxy is met at
the end of `p`, its name can be replaced by its pointer, whatever comes behind. -/
theorem Reached.retrieveIn?_append_and_proxy (h : t.Reached) :
    (∀ scope p q, p.segments ≠ [] → q.segments ≠ [] →
        t.retrieveIn? scope (p ++ q) =
          (t.retrieveIn? scope p).bind fun c => t.retrieveFrom? c.id q) ∧
      ∀ scope p reached name id proxy, t.scopeAt? scope p = some reached →
        t.child? reached name = some id → t.node? id = some (.proxy proxy) →
        (∀ q, t.retrieveIn? scope (p.join name ++ q) =
            t.retrieveIn? scope (p ++ proxy.pointer ++ q)) ∧
          ∃ term, t.resolveProxy id = .ok term ∧
            t.retrieveIn? scope (p ++ proxy.pointer) = some term := by
  have hcoherent := h.coherent
  refine ⟨fun scope p q hp hq => hcoherent.retrieveIn?_append hp hq, ?_⟩
  intro scope p reached name id proxy hscope hchild hnode
  have hreaches := hcoherent.scopeAt?_eq_some_iff.1 hscope
  obtain ⟨target, term, hfollow, hterm⟩ := hcoherent.exists_follow hnode
  have hlocate := (hcoherent.follow_proxy_eq_ok_iff hnode).1 hfollow
  obtain ⟨hpointer, hlast⟩ := locate_eq_ok_iff_reaches.1 hlocate
  refine ⟨fun q => ?_, term, resolveProxy_eq_ok_iff.2 ⟨target, hfollow, hterm⟩, ?_⟩
  · refine hcoherent.retrieveIn?_congr (by simp [Pointer.join]) (by simp [hpointer]) fun last => ?_
    simp only [Pointer.segments_append, Pointer.join]
    rw [reaches_append_iff, reaches_append_iff]
    simp only [hcoherent.reaches_append_proxy_iff hreaches hchild hnode]
  · have hid := hcoherent.id_of_term? hterm
    subst hid
    refine hcoherent.retrieveIn?_eq_some_iff.2 ⟨by simp [hpointer], ?_, hterm⟩
    rw [Pointer.segments_append, ← hcoherent.reaches_append_proxy_iff hreaches hchild hnode,
      reaches_append_iff]
    exact ⟨reached, hreaches, reaches_cons_iff.2 ⟨id, term.id, hchild, hfollow, reaches_nil_iff.2 rfl⟩⟩

/-- The text of the role of a person, through the proxy among its parts and along the pointer of the
proxy. -/
theorem Sample.retrieve?_of_roleText : Sample.grafted.Reached ∧
    Sample.grafted.scopeAt? none (Sample.pointer ["person"]) = some (some 5) ∧
    Sample.grafted.child? (some 5) ⟨"roleText"⟩ = some 9 ∧
    Sample.grafted.node? 9 = some (.proxy Sample.roleText) ∧
    Sample.grafted.retrieve? (Sample.pointer ["person", "roleText"]) =
      Sample.grafted.retrieve? (Sample.pointer ["person", "role", "text"]) ∧
    ∃ term, Sample.grafted.resolveProxy 9 = .ok term ∧
      Sample.grafted.retrieve? (Sample.pointer ["person", "role", "text"]) = some term := by
  have hscope : Sample.grafted.scopeAt? none (Sample.pointer ["person"]) = some (some 5) := by
    decide +kernel
  have hchild : Sample.grafted.child? (some 5) ⟨"roleText"⟩ = some 9 := by decide +kernel
  have hnode : Sample.grafted.node? 9 = some (.proxy Sample.roleText) := by decide +kernel
  obtain ⟨-, hproxy⟩ := Reached.retrieveIn?_append_and_proxy Sample.reached_grafted
  obtain ⟨hreplaced, hresolved⟩ := hproxy none _ _ _ _ _ hscope hchild hnode
  exact ⟨Sample.reached_grafted, hscope, hchild, hnode, hreplaced ⟨[]⟩, hresolved⟩

end Terminology

end TermAtlas
