import TermAtlas.Proofs.Origin
import TermAtlas.Proofs.Unfolding

/-!
# Values that do not fit

A known key is read from values of some kinds only: a flag is not read as a path, nor a text as the
attributes. A value of another kind does not fit. Every key but one treats it as if nothing had been
said. The namespace does not: any value that is neither a text nor a flag is read as the explicit
absence of a namespace, whereas terms that say nothing about their namespace are in the default one.

Building reads every key in a place of its own. So two collections of settings build the same as soon as
each key is read alike in both, and the extensions are the same (`Settings.ReadAlike`); which values are
read alike is a matter of one key at a time (`Key.readsAlike_of_misfit`).

## What is proved

* `Key.readsAlike_of_misfit`, `Key.qualifierOf_of_misfit` — what a value that does not fit is read as.
* `Settings.ReadAlike.traits_eq`, `Settings.readAlike_erase`, `Settings.readAlike_clear` — what becomes of
  the traits.
* `BuiltFrom.misfits_ignored` — what is built is the same as without the value.
-/

namespace TermAtlas

open Setting

namespace Setting.Key

/-- Whether a path in the shape of a mapping names an attribute, by a text or a flag. -/
def namesAttribute (v : Value) : Bool :=
  (v.asMapping?.bind (·.get? "attribute")).any fun label => label.kind ∈ [.text, .flag]

/-- Whether a key is read from values of the kind of this one. -/
def fits : Key → Value → Bool
  | path, v => v.kind ∈ [.nil, .text] ∨ namesAttribute v
  | attributes, v => v.kind = .mapping
  | required, v => v.kind = .flag
  | root, v => v.kind = .flag
  | dataType, v => v.kind ∈ [.text, .flag]
  | contentPath, v => v.kind ∈ [.text, .flag]
  | indexAs, v => v.kind ∈ [.tags, .text]
  | qualifier, v => v.kind ∈ [.nil, .text, .flag]
  | variantOf, v => v.kind ∈ [.pointer, .text]
  | reference, v => v.kind ∈ [.pointer, .text]
  | proxy, v => v.kind ∈ [.pointer, .text]
  | extension _, _ => true

/-- Whether building reads the same from two values under a key of a term of this name. -/
def ReadsAlike (name : Name) : Key → Option Value → Option Value → Prop
  | path, v, w => Traits.locatorOf name v = Traits.locatorOf name w
  | attributes, v, w => Traits.attributesOf v = Traits.attributesOf w
  | required, v, w => (v.bind Value.asFlag?).getD false = (w.bind Value.asFlag?).getD false
  | root, v, w => (v.bind Value.asFlag?).getD false = (w.bind Value.asFlag?).getD false
  | dataType, v, w => v.bind Value.toText? = w.bind Value.toText?
  | contentPath, v, w => v.bind Value.toText? = w.bind Value.toText?
  | indexAs, v, w => Traits.indexHintsOf v = Traits.indexHintsOf w
  | qualifier, v, w => Traits.qualifierOf v = Traits.qualifierOf w
  | variantOf, v, w => v.bind Value.toPointer? = w.bind Value.toPointer?
  | reference, v, w => v.bind Value.toPointer? = w.bind Value.toPointer?
  | proxy, v, w => v.bind Value.toPointer? = w.bind Value.toPointer?
  | extension _, v, w => v = w

variable {name : Name} {key : Key} {v w : Value}

theorem ReadsAlike.refl (v : Option Value) : key.ReadsAlike name v v := by
  cases key <;> rfl

/-! ### One value -/

/-- Everything fits an extension. -/
theorem isExtension_of_misfit (h : key.fits v = false) : key.isExtension = false := by
  cases key with
  | extension text => cases h
  | _ => rfl

/-- A mapping that names no attribute is not read as one. -/
theorem attributeName?_of_not (h : namesAttribute v = false) :
    v.asMapping?.bind Traits.attributeName? = none := by
  have hread : v.asMapping?.bind Traits.attributeName? =
      (v.asMapping?.bind (·.get? "attribute")).bind Value.toText? := (Option.bind_assoc _ _ _).symm
  rw [namesAttribute] at h
  rw [hread]
  cases hlabel : v.asMapping?.bind (·.get? "attribute") with
  | none => rfl
  | some label =>
    rw [hlabel] at h
    cases label <;> first | rfl | cases h

theorem locatorOf_of_misfit (h : fits path v = false) :
    Traits.locatorOf name none = Traits.locatorOf name (some v) := by
  rw [fits, decide_eq_false_iff_not, not_or, Bool.not_eq_true] at h
  obtain ⟨hkind, hnames⟩ := h
  have hread := attributeName?_of_not hnames
  cases v with
  | text _ => exact absurd (by simp [Value.kind]) hkind
  | mapping keys valueAt => simp only [Traits.locatorOf, hread]
  | _ => rfl

/-- Under every key but that of the namespace, a value that does not fit is read as no value. -/
theorem readsAlike_of_misfit (h : key.fits v = false) (hkey : key ≠ .qualifier) :
    key.ReadsAlike name none (some v) := by
  cases key with
  | path => exact locatorOf_of_misfit h
  | qualifier => exact absurd rfl hkey
  | extension text => cases h
  | _ => cases v <;> first | rfl | cases h

/-- As a namespace, a value that does not fit is read as the explicit absence of one. -/
theorem qualifierOf_of_misfit (h : fits .qualifier v = false) :
    ReadsAlike name .qualifier (some .nil) (some v) := by
  cases v <;> first | rfl | cases h

end Setting.Key

/-! ### All settings -/

namespace Settings

/-- Building reads the same from two collections of settings of a term of this name. -/
structure ReadAlike (name : Name) (s s' : Settings) : Prop where
  /-- Each key is read alike. -/
  value : ∀ key : Key, key.ReadsAlike name (s.get? key) (s'.get? key)
  /-- The same is carried along. -/
  extensions : s.extensions = s'.extensions

variable {name : Name} {key : Key} {v : Value} {s s' : Settings}

/-- Settings that are read alike come to the same traits. -/
theorem ReadAlike.traits_eq (h : s.ReadAlike name s') : Traits.ofSettings name s = Traits.ofSettings name s' := by
  have hlocator : Traits.locatorOf name (s.get? .path) = Traits.locatorOf name (s'.get? .path) := h.value .path
  have hqualifier : Traits.qualifierOf (s.get? .qualifier) = Traits.qualifierOf (s'.get? .qualifier) :=
    h.value .qualifier
  have hattributes : Traits.attributesOf (s.get? .attributes) = Traits.attributesOf (s'.get? .attributes) :=
    h.value .attributes
  have hrequired : s.isOn .required = s'.isOn .required := h.value .required
  have hdataType : s.text? .dataType = s'.text? .dataType := h.value .dataType
  have hindexAs : Traits.indexHintsOf (s.get? .indexAs) = Traits.indexHintsOf (s'.get? .indexAs) :=
    h.value .indexAs
  have hcontentPath : s.text? .contentPath = s'.text? .contentPath := h.value .contentPath
  have hvariantOf : s.pointer? .variantOf = s'.pointer? .variantOf := h.value .variantOf
  have hroot : s.isOn .root = s'.isOn .root := h.value .root
  simp only [Traits.ofSettings, hlocator, hqualifier, hattributes, hrequired, hdataType, hindexAs,
    hcontentPath, hvariantOf, hroot, h.extensions]

/-- Nothing else is read when a value that does not fit is taken away, unless it is the namespace. -/
theorem readAlike_erase (hv : s.get? key = some v) (hfits : key.fits v = false) (hkey : key ≠ .qualifier) :
    ReadAlike name (s.erase key) s where
  value other := by
    rw [OrderedMap.get?_erase]
    split
    · next heq =>
      rw [heq, hv]
      exact Key.readsAlike_of_misfit hfits hkey
    · exact Key.ReadsAlike.refl _
  extensions := OrderedMap.restrict_erase (Key.isExtension_of_misfit hfits) s

/-- Nothing else is read when a namespace that does not fit becomes the explicit absence of one. -/
theorem readAlike_clear (hv : s.get? .qualifier = some v) (hfits : Key.fits .qualifier v = false) :
    ReadAlike name (s.insert .qualifier .nil) s where
  value other := by
    rw [OrderedMap.get?_insert]
    split
    · next heq =>
      rw [heq, hv]
      exact Key.qualifierOf_of_misfit hfits
    · exact Key.ReadsAlike.refl _
  extensions := OrderedMap.restrict_insert rfl s .nil

end Settings

/-! ### What is built -/

variable {registry : Option Registry} {ds : List Declaration} {d resolved : Declaration}
  {fresh : List Identity} {names : List Name} {e : Expansion}

/-- A term is made of the traits that its settings come to, and of children that have nothing to do with
them. -/
theorem Declaration.exists_expandWithin_settings (hexpand : (d.expandWithin registry fresh names).result = .ok e)
    (hresolve : (d.resolve registry).result = .ok resolved) (hpointer : resolved.settings.pointer? .proxy = none) :
    ∃ children, e = .term d.name (Traits.ofSettings d.name resolved.settings) children ∧
      ∀ s : Settings, s.get? .reference = none → s.pointer? .proxy = none →
        (expandWithin registry fresh names { resolved with settings := s }).result =
          .ok (.term d.name (Traits.ofSettings d.name s) children) := by
  have hfresh : d.id ∈ fresh := mem_of_expandWithin hexpand
  obtain ⟨hid, hname⟩ := id_and_name_of_resolve hresolve
  rw [result_expandWithin_term hfresh hresolve hpointer] at hexpand
  obtain ⟨children, hchildren, rfl⟩ := Logged.result_map_eq_ok_iff.1 hexpand
  refine ⟨children, rfl, fun s hreference hproxy => ?_⟩
  have hagain : (Declaration.resolve { resolved with settings := s } registry).result =
      .ok { resolved with settings := s } :=
    congrArg Logged.result (resolve_of_resolved hreference registry)
  rw [result_expandWithin_term (hid ▸ hfresh) hagain hproxy]
  dsimp only
  rw [hid, hname, hchildren]
  rfl

/-- Whether a namespace that does not fit is there or not does make a difference. -/
theorem Traits.ofSettings_erase_qualifier_ne {name : Name} {v : Value} {s : Settings}
    (hv : s.get? .qualifier = some v) (hfits : Key.fits .qualifier v = false) :
    Traits.ofSettings name (s.erase .qualifier) ≠ Traits.ofSettings name s := by
  intro heq
  have hqualifier : qualifierOf ((s.erase .qualifier).get? .qualifier) = qualifierOf (s.get? .qualifier) :=
    congrArg Traits.qualifier heq
  have hread : Key.ReadsAlike name .qualifier (some .nil) (some v) := Key.qualifierOf_of_misfit hfits
  have hnone : none = qualifierOf (some v) := hread
  rw [OrderedMap.get?_erase, if_pos rfl, hv, ← hnone] at hqualifier
  cases hqualifier

namespace Terminology

variable {t : Terminology} {id : Nat} {term : Term}

/-- What is laid out from a term on, with all fields and all paths of the term and of everything below it, is
the same as without a value that does not fit the key it stands under. Only a namespace that does not fit is
another matter: it stands for no namespace, and then what is laid out is not the same as without it. -/
theorem BuiltFrom.misfits_ignored (h : BuiltFrom registry ds t) (hterm : t.term? id = some term) :
    (∃ d, t.MadeOf registry ds id d) ∧ ∀ d, t.MadeOf registry ds id d → ∃ resolved fresh names e,
      (d.resolve registry).result = .ok resolved ∧
      (d.expandWithin registry fresh names).result = .ok e ∧ t.Holds id (t.aboveOf id) e ∧
      ∀ key v, resolved.settings.get? key = some v → key.fits v = false →
        (key ≠ .qualifier → ((resolved.unset key).expandWithin registry fresh names).result = .ok e) ∧
        (key = .qualifier → ((resolved.set key .nil).expandWithin registry fresh names).result = .ok e ∧
          ∃ other, ((resolved.unset key).expandWithin registry fresh names).result = .ok other ∧
            other ≠ e) := by
  refine ⟨h.exists_madeOf (lt_size_of_term? hterm), fun d hmade => ?_⟩
  obtain ⟨chain, hchain, hpointer, -, -⟩ := h.traits_eq hmade hterm
  obtain ⟨fresh, names, e, hexpand, hholds⟩ := hmade.exists_expandWithin h.result
  have hresolve := Declaration.resolve_eq_ok_iff.2 ⟨chain, hchain, rfl⟩
  have hreference := (Declaration.imported_importAlong d chain).reference
  generalize d.importAlong chain = resolved at hpointer hresolve hreference
  obtain ⟨children, rfl, hsame⟩ := Declaration.exists_expandWithin_settings hexpand hresolve hpointer
  refine ⟨resolved, fresh, names, _, hresolve, hexpand, hholds, fun key v hv hfits => ⟨fun hkey => ?_, ?_⟩⟩
  · have halike : Settings.ReadAlike d.name (resolved.settings.erase key) resolved.settings :=
      Settings.readAlike_erase hv hfits hkey
    have herased : (resolved.settings.erase key).get? .reference = none := by
      rw [OrderedMap.get?_erase, hreference, ite_self]
    rw [← halike.traits_eq]
    exact hsame _ herased ((halike.value .proxy).trans hpointer)
  · rintro rfl
    have halike : Settings.ReadAlike d.name (resolved.settings.insert .qualifier .nil) resolved.settings :=
      Settings.readAlike_clear hv hfits
    have hcleared : (resolved.settings.insert .qualifier .nil).get? .reference = none := by
      rw [OrderedMap.get?_insert, if_neg Key.noConfusion, hreference]
    have herased : ∀ other, other ≠ Key.qualifier →
        (resolved.settings.erase .qualifier).get? other = resolved.settings.get? other := by
      intro other hother
      rw [OrderedMap.get?_erase, if_neg hother]
    refine ⟨?_, _, hsame (resolved.settings.erase .qualifier) ?_ ?_, fun heq => ?_⟩
    · rw [← halike.traits_eq]
      exact hsame _ hcleared ((halike.value .proxy).trans hpointer)
    · rw [herased _ Key.noConfusion, hreference]
    · rw [Settings.pointer?, herased _ Key.noConfusion]
      exact hpointer
    · exact Traits.ofSettings_erase_qualifier_ne hv hfits (Expansion.term.inj heq).2.1

namespace Sample

/-- Articles, whose path is not one, and books, whose namespace is not one. -/
def misfitting : Registry where
  roots := [
    declaration 0 "article" [(.path, .tags (OrderedSet.ofList ["journal"])), (.required, .text "yes")]
      [declaration 1 "title" [] []],
    declaration 2 "book" [(.qualifier, .tags (OrderedSet.ofList ["library"]))] []]
  distinct := by decide

/-- The terminology of articles and books. -/
def misfitted : Terminology := misfitting.build.result.toOption.getD default

theorem result_misfitting : misfitting.build.result = .ok misfitted := by
  have hsome : misfitting.build.result.toOption.isSome := by decide +kernel
  rw [misfitted, eq_ok_get hsome]
  rfl

/-- What is laid out for articles and their titles is what articles without the path come to. -/
theorem misfit_of_article : misfitting.build.result = .ok misfitted ∧ ∃ fresh names e,
    misfitted.Holds 0 none e ∧
      (Declaration.expandWithin (some misfitting) fresh names (misfitting.roots[0].unset .path)).result =
        .ok e := by
  have hsome : (misfitted.term? 0).isSome := by decide +kernel
  obtain ⟨term, hterm⟩ := Option.isSome_iff_exists.1 hsome
  have hlink : misfitted.roots[0]? = some ⟨⟨"article"⟩, 0⟩ := by decide +kernel
  have habove : misfitted.aboveOf 0 = none := by decide +kernel
  have hresolved : misfitting.roots[0].resolve (some misfitting) = pure misfitting.roots[0] :=
    Declaration.resolve_of_resolved rfl _
  obtain ⟨-, hmade⟩ := BuiltFrom.misfits_ignored (.registry result_misfitting) hterm
  obtain ⟨resolved, fresh, names, e, hresolve, -, hholds, hignored⟩ := hmade misfitting.roots[0] (.root rfl hlink)
  obtain rfl : misfitting.roots[0] = resolved :=
    Except.ok.inj ((congrArg Logged.result hresolved).symm.trans hresolve)
  rw [habove] at hholds
  exact ⟨result_misfitting, fresh, names, e, hholds, (hignored .path _ rfl rfl).1 Key.noConfusion⟩

/-- Books are in no namespace, but without the value that does not fit they are in the default one. -/
theorem namespace_of_book : misfitting.build.result = .ok misfitted ∧ ∃ d v,
    misfitted.MadeOf (some misfitting) misfitting.roots 2 d ∧
      (d.resolve (some misfitting)).result = .ok d ∧
      d.settings.get? .qualifier = some v ∧ Key.fits .qualifier v = false ∧
      (misfitted.term? 2).map (·.paths.absolute) = some "//book" ∧
      (((d.unset .qualifier).build (some misfitting)).result.toOption.bind (·.term? 0)).map
        (·.paths.absolute) = some "//oxns:book" := by
  have hlink : misfitted.roots[1]? = some ⟨⟨"book"⟩, 2⟩ := by decide +kernel
  have hresolved : misfitting.roots[1].resolve (some misfitting) = pure misfitting.roots[1] :=
    Declaration.resolve_of_resolved rfl _
  exact ⟨result_misfitting, misfitting.roots[1], _, .root rfl hlink, congrArg Logged.result hresolved, rfl, rfl,
    by decide +kernel, by decide +kernel⟩

end Sample

end Terminology

end TermAtlas
