import TermAtlas.Proofs.Origin

/-!
# Extension settings

What is said under an extension key is carried along to the term, whatever it is: it is taken over along
references as all settings are, and nothing else looks at it. On the term it can be listed, and it can be
looked up by its text. Looking it up reads the text as a key first. A text that a known key has is read
as the known key, and no known key is among the extensions; so an extension with such a text is listed,
but never found by its text.

## What is proved

* `Key.isExtension_ofText`, `Traits.extension?_eq` — which texts are read as extensions, and what is found.
* `BuiltFrom.extensions_of_term` — what a term lists and finds.
-/

namespace TermAtlas

open Setting

/-! ### Keys and their texts -/

namespace Setting.Key

/-- A text that no known key has is read as an extension. -/
theorem ofText_of_unknown {text : String} (h : isKnownText text = false) :
    ofText text = .extension text := by
  have hnone : known.find? (·.text = text) = none :=
    List.find?_eq_none.2 fun key hkey htext => Bool.eq_false_iff.1 h (List.any_eq_true.2 ⟨key, hkey, htext⟩)
  rw [ofText, hnone, Option.getD_none]

theorem isExtension_of_mem_known : ∀ key ∈ known, key.isExtension = false := by decide

/-- A text is read as an extension exactly if no known key has it. -/
theorem isExtension_ofText (text : String) : (ofText text).isExtension = !isKnownText text := by
  cases h : isKnownText text with
  | false => rw [ofText_of_unknown h]; rfl
  | true =>
    obtain ⟨key, hkey, htext⟩ := List.any_eq_true.1 h
    obtain rfl : key.text = text := of_decide_eq_true htext
    rw [ofText_text key hkey, isExtension_of_mem_known key hkey]
    rfl

end Setting.Key

/-- What is found under the text of an extension; nothing if a known key has the text. -/
theorem Traits.extension?_eq (name : Name) (s : Settings) (text : String) :
    (Traits.ofSettings name s).extension? text =
      if Key.isKnownText text then none else s.get? (.extension text) := by
  rw [extension?, ofSettings, Settings.extensions, OrderedMap.get?_restrict, Key.isExtension_ofText]
  cases h : Key.isKnownText text with
  | false => rw [Key.ofText_of_unknown h]; rfl
  | true => rfl

/-! ### What terms have -/

namespace Terminology

open Declaration

variable {t : Terminology} {registry : Option Registry} {ds : List Declaration} {id : Nat} {term : Term}

/-- Every term was made of something, and lists what this has under extension keys when it is resolved,
in the same order and nothing else. Under each extension key this is what it says itself, or else the nearest
declaration on its chain, mappings being merged. By its text an extension is found, unless a known key has
the same text. -/
theorem BuiltFrom.extensions_of_term (h : BuiltFrom registry ds t) (hterm : t.term? id = some term) :
    (∃ d, t.MadeOf registry ds id d) ∧ ∀ d, t.MadeOf registry ds id d → ∃ chain resolved,
      (d.chain registry).result = .ok chain ∧ (d.resolve registry).result = .ok resolved ∧
      term.traits.extensions.entries = resolved.settings.entries.filter (·.1.isExtension) ∧
      ∀ text,
        Inherits (held (.extension text) (d :: chain)) (resolved.settings.get? (.extension text)) ∧
        term.traits.extensions.get? (.extension text) = resolved.settings.get? (.extension text) ∧
        term.traits.extension? text =
          if Key.isKnownText text then none else resolved.settings.get? (.extension text) := by
  refine ⟨h.exists_madeOf (lt_size_of_term? hterm), fun d hmade => ?_⟩
  obtain ⟨chain, hchain, -, -, htraits⟩ := h.traits_eq hmade hterm
  refine ⟨chain, d.importAlong chain, hchain, resolve_eq_ok_iff.2 ⟨chain, hchain, rfl⟩, ?_,
    fun text => ⟨?_, ?_, ?_⟩⟩
  · rw [htraits]
    rfl
  · exact (imported_importAlong d chain).inherits _ Key.noConfusion nofun
  · rw [htraits]
    exact OrderedMap.get?_restrict _ _ _
  · rw [htraits, Traits.extension?_eq]

/-! ### Labels of licences -/

namespace Sample

/-- A licence, which is a statement of use. The statement has an extension with the text of a known key. -/
def labelled : Registry where
  roots := [
    declaration 0 "use" [
      (.extension "label", .text "Use statement"),
      (.extension "display", .ofMapping (OrderedMap.ofList [("order", .text "2"), ("size", .text "small")])),
      (.extension "path", .text "page")] [],
    declaration 1 "license" [
      (.reference, .pointer (pointer ["use"])),
      (.extension "label", .text "License"),
      (.extension "display", .ofMapping (OrderedMap.ofList [("size", .text "large")]))] []]
  distinct := by decide

/-- The terminology of the licence. -/
def licensed : Terminology := labelled.build.result.toOption.getD default

theorem result_labelled : labelled.build.result = .ok licensed := by
  have hsome : labelled.build.result.toOption.isSome := by decide +kernel
  rw [licensed, eq_ok_get hsome]
  rfl

/-- The licence has its own label, and lists what it takes over. -/
theorem extensions_of_license : labelled.build.result = .ok licensed ∧ ∃ term,
    licensed.term? 1 = some term ∧ term.traits.extension? "label" = some (.text "License") ∧
      (∃ m, term.traits.extension? "display" = some (.ofMapping m) ∧
        m.get? "order" = some (.text "2") ∧ m.get? "size" = some (.text "large")) ∧
      term.traits.extensions.get? (.extension "path") = some (.text "page") := by
  have hsome : (licensed.term? 1).isSome := by decide +kernel
  obtain ⟨term, hterm⟩ := Option.isSome_iff_exists.1 hsome
  have hlink : licensed.roots[1]? = some ⟨⟨"license"⟩, 1⟩ := by decide +kernel
  have hwalk : (labelled.roots[1].chain (some labelled)).result = .ok [labelled.roots[0]] :=
    chain_eq_ok_iff_walk.2 ⟨labelled.roots[0], .cons rfl .nil, by decide +kernel, rfl⟩
  obtain ⟨-, hmade⟩ := BuiltFrom.extensions_of_term (.registry result_labelled) hterm
  obtain ⟨chain, resolved, hchain, -, -, hentries⟩ := hmade labelled.roots[1] (.root rfl hlink)
  obtain rfl := Except.ok.inj (hwalk.symm.trans hchain)
  obtain ⟨hlabel, -, hlabelFound⟩ := hentries "label"
  obtain ⟨hdisplay, -, hdisplayFound⟩ := hentries "display"
  obtain ⟨hpath, hpathListed, -⟩ := hentries "path"
  obtain ⟨m, hm, hlabels⟩ := hdisplay.exists_mapping
  refine ⟨result_labelled, term, hterm, ?_, ⟨m, ?_, hlabels "order", hlabels "size"⟩, ?_⟩
  · rw [hlabelFound, if_neg (by decide)]
    exact hlabel.eq_of_plain rfl
  · rw [hdisplayFound, if_neg (by decide)]
    exact hm
  · rw [hpathListed]
    exact hpath.eq_of_plain rfl

/-- The statement of use has an extension with the text of a known key. It is listed, and not found. -/
theorem extension_not_found : labelled.build.result = .ok licensed ∧ ∃ d resolved term,
    licensed.MadeOf (some labelled) labelled.roots 0 d ∧ (d.resolve (some labelled)).result = .ok resolved ∧
      licensed.term? 0 = some term ∧ resolved.settings.get? (.extension "path") = some (.text "page") ∧
      term.traits.extensions.get? (.extension "path") = some (.text "page") ∧
      term.traits.extension? "path" = none := by
  have hlink : licensed.roots[0]? = some ⟨⟨"use"⟩, 0⟩ := by decide +kernel
  have hresolve : labelled.roots[0].resolve (some labelled) = pure labelled.roots[0] := resolve_of_resolved rfl _
  have hlisted : (licensed.term? 0).map (fun term =>
      (term.traits.extensions.get? (.extension "path"), term.traits.extension? "path")) =
        some (some (.text "page"), none) := by
    decide +kernel
  obtain ⟨term, hterm, hpair⟩ := Option.map_eq_some_iff.1 hlisted
  obtain ⟨hget, hfind⟩ := Prod.mk.inj hpair
  exact ⟨result_labelled, _, _, term, .root rfl hlink, congrArg Logged.result hresolve, hterm, rfl, hget, hfind⟩

end Sample

end Terminology

end TermAtlas
