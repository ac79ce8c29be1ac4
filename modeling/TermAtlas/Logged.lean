import TermAtlas.Event

/-!
# Logged computations

A computation that may fail and records events on the way. What was recorded before a failure is
kept. `Logged` is a monad (`LawfulMonad Logged`), and the results alone are those of the same
computation without a record.

## What is proved

* `result_bind` — the result of a sequence is the sequence of the results.
* `result_bind_eq_ok_iff`, `result_traverse_eq_ok_iff` — a sequence succeeds exactly when each of its
  steps does.
* `result_bind_eq_error_iff`, `result_traverse_eq_error_iff` — it fails as the first step that does.
-/

namespace TermAtlas

/-- A result, or the reason why there is none, with the events recorded on the way. -/
@[ext]
structure Logged (α : Type) where
  log : List Event
  result : Except Error α

namespace Logged

variable {α β : Type}

instance : Monad Logged where
  map f x := ⟨x.log, x.result.map f⟩
  pure a := ⟨[], .ok a⟩
  bind x f :=
    match x.result with
    | .ok a =>
      let y := f a
      ⟨x.log ++ y.log, y.result⟩
    | .error e => ⟨x.log, .error e⟩

/-- Records an event. -/
def note (event : Event) : Logged Unit := ⟨[event], .ok ()⟩

/-- Records events. -/
def notes (events : List Event) : Logged Unit := ⟨events, .ok ()⟩

/-- Fails. -/
def fail (e : Error) : Logged α := ⟨[], .error e⟩

/-- Records nothing. -/
def ofExcept (x : Except Error α) : Logged α := ⟨[], x⟩

/-- Runs `f` on every item in order, up to the first failure. -/
def traverse (f : α → Logged β) : List α → Logged (List β)
  | [] => pure []
  | a :: rest => do
    let b ← f a
    (b :: ·) <$> traverse f rest

@[simp]
theorem result_pure (a : α) : (pure a : Logged α).result = .ok a := rfl

@[simp]
theorem log_pure (a : α) : (pure a : Logged α).log = [] := rfl

@[simp]
theorem result_map (f : α → β) (x : Logged α) : (f <$> x).result = x.result.map f := rfl

@[simp]
theorem log_map (f : α → β) (x : Logged α) : (f <$> x).log = x.log := rfl

/-- A mapped computation succeeds exactly when the computation does. -/
theorem result_map_eq_ok_iff {f : α → β} {x : Logged α} {b : β} :
    (f <$> x).result = .ok b ↔ ∃ a, x.result = .ok a ∧ f a = b := by
  rw [result_map]
  cases x.result <;> simp [Except.map]

@[simp]
theorem result_bind (x : Logged α) (f : α → Logged β) :
    (x >>= f).result = x.result >>= fun a => (f a).result := by
  obtain ⟨log, result⟩ := x
  cases result <;> rfl

/-- After a first step that succeeds, a sequence goes on with what that gives. -/
theorem bind_of_ok {x : Logged α} {a : α} (h : x.result = .ok a) (f : α → Logged β) :
    x >>= f = ⟨x.log ++ (f a).log, (f a).result⟩ := by
  obtain ⟨log, result⟩ := x
  subst h
  rfl

/-- A sequence stops where its first step fails. -/
theorem bind_of_error {x : Logged α} {e : Error} (h : x.result = .error e) (f : α → Logged β) :
    x >>= f = ⟨x.log, .error e⟩ := by
  obtain ⟨log, result⟩ := x
  subst h
  rfl

/-- What is done next need only agree on the result that there is. -/
theorem bind_congr_of_result {x : Logged α} {f g : α → Logged β}
    (h : ∀ a, x.result = .ok a → f a = g a) : x >>= f = x >>= g := by
  obtain ⟨log, result⟩ := x
  cases result with
  | error e => rfl
  | ok a => simp [bind, h a rfl]

/-- A sequence succeeds exactly when both of its steps do. -/
theorem result_bind_eq_ok_iff {x : Logged α} {f : α → Logged β} {b : β} :
    (x >>= f).result = .ok b ↔ ∃ a, x.result = .ok a ∧ (f a).result = .ok b := by
  rw [result_bind]
  cases x.result with
  | error e => simp [bind, Except.bind]
  | ok a => simp [bind, Except.bind]

/-- A sequence fails exactly when its first step does, or its second one after that. -/
theorem result_bind_eq_error_iff {x : Logged α} {f : α → Logged β} {e : Error} :
    (x >>= f).result = .error e ↔ x.result = .error e ∨ ∃ a, x.result = .ok a ∧ (f a).result = .error e := by
  rw [result_bind]
  cases x.result with
  | error e => simp [bind, Except.bind]
  | ok a => simp [bind, Except.bind]

/-- A traversal succeeds exactly when every item gives its part of the result. -/
theorem result_traverse_eq_ok_iff {f : α → Logged β} {items : List α} {results : List β} :
    (traverse f items).result = .ok results ↔
      items.map (fun a => (f a).result) = results.map Except.ok := by
  induction items generalizing results with
  | nil => cases results <;> simp [traverse]
  | cons a rest ih =>
    simp only [traverse, result_bind_eq_ok_iff, result_map_eq_ok_iff, ih, List.map_cons]
    constructor
    · rintro ⟨b, hb, others, hothers, rfl⟩
      rw [hb, hothers, List.map_cons]
    · intro h
      cases results with
      | nil => simp at h
      | cons b others =>
        rw [List.map_cons, List.cons.injEq] at h
        exact ⟨b, h.1, others, h.2, rfl⟩

/-- A traversal fails exactly when some item does, and no item before it. -/
theorem result_traverse_eq_error_iff {f : α → Logged β} {items : List α} {e : Error} :
    (traverse f items).result = .error e ↔ ∃ before a after, items = before ++ a :: after ∧
      (∀ b ∈ before, ∃ c, (f b).result = .ok c) ∧ (f a).result = .error e := by
  induction items with
  | nil => simp [traverse]
  | cons a rest ih =>
    have hmap : ∀ b, ((b :: ·) <$> traverse f rest).result = .error e ↔ (traverse f rest).result = .error e := by
      intro b
      rw [result_map]
      cases (traverse f rest).result <;> simp [Except.map]
    simp only [traverse, result_bind_eq_error_iff, hmap, ih]
    constructor
    · rintro (ha | ⟨b, hb, before, a', after, rfl, hbefore, ha'⟩)
      · exact ⟨[], a, rest, rfl, by simp, ha⟩
      · exact ⟨a :: before, a', after, rfl, List.forall_mem_cons.2 ⟨⟨b, hb⟩, hbefore⟩, ha'⟩
    · rintro ⟨before, a', after, hitems, hbefore, ha'⟩
      rcases List.cons_eq_append_iff.1 hitems with ⟨rfl, hcons⟩ | ⟨tail, rfl, rfl⟩
      · obtain ⟨rfl, rfl⟩ := List.cons.inj hcons
        exact .inl ha'
      · obtain ⟨⟨b, hb⟩, htail⟩ := List.forall_mem_cons.1 hbefore
        exact .inr ⟨b, hb, tail, a', after, rfl, htail, ha'⟩

/-- A traversal succeeds if every item gives its part. -/
theorem exists_result_traverse_iff {f : α → Logged β} {items : List α} :
    (∃ results, (traverse f items).result = .ok results) ↔ ∀ a ∈ items, ∃ b, (f a).result = .ok b := by
  constructor
  · rintro ⟨results, hresults⟩ a ha
    rw [result_traverse_eq_ok_iff] at hresults
    have hmem := hresults ▸ List.mem_map_of_mem (f := fun a => (f a).result) ha
    obtain ⟨b, -, hb⟩ := List.mem_map.1 hmem
    exact ⟨b, hb.symm⟩
  · intro hall
    cases hresult : (traverse f items).result with
    | ok results => exact ⟨results, rfl⟩
    | error e =>
      obtain ⟨before, a, after, rfl, -, ha⟩ := result_traverse_eq_error_iff.1 hresult
      obtain ⟨b, hb⟩ := hall a (by simp)
      cases hb.symm.trans ha

@[simp]
theorem result_note (event : Event) : (note event).result = .ok () := rfl

@[simp]
theorem result_notes (events : List Event) : (notes events).result = .ok () := rfl

@[simp]
theorem result_fail (e : Error) : (fail e : Logged α).result = .error e := rfl

@[simp]
theorem result_ofExcept (x : Except Error α) : (ofExcept x).result = x := rfl

instance : LawfulMonad Logged := LawfulMonad.mk' Logged
  (by
    intro α x
    obtain ⟨log, result⟩ := x
    cases result <;> rfl)
  (by
    intro α β a f
    simp [bind, pure])
  (by
    intro α β γ x f g
    obtain ⟨log, result⟩ := x
    cases result with
    | error e => rfl
    | ok a =>
      simp only [bind]
      cases h : (f a).result <;> simp)
  (by
    intro α β a x
    rfl)
  (by
    intro α β x y
    rfl)
  (by
    intro α β x y
    rfl)
  (by
    intro α β f x
    obtain ⟨log, result⟩ := x
    cases result <;> simp [bind, pure, Functor.map, Except.map])

end Logged

end TermAtlas
