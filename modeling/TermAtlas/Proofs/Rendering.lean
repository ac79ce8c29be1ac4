import TermAtlas.Proofs.Grammar

/-!
# Reading what is shown

Pointers are shown as lists of symbols between brackets, and what is shown can be read again, if every
name is a word: letters and digits of ASCII, underscores and hyphens, at least one of them. Brackets stand
around the whole and around each index, and a blank behind each comma; the grammar of pointers tells
them apart, so it is enough that what is shown derives from it. Conversely only words are ever read, so
that whatever was read can be shown and read again, in whatever way it was written.

## What is proved

* `Derives.words` — a text that derives from the grammar has words for names.
* `derives_render` — steps that have words for names are shown as a text that derives from the grammar.
* `Pointer.ofText_render_eq_ok_iff` — what is shown is read back exactly if all names are words.
-/

namespace TermAtlas

/-- One or more letters and digits of ASCII, underscores and hyphens. -/
def Name.IsWord (name : Name) : Prop :=
  name.text.toList ≠ [] ∧ ∀ c ∈ name.text.toList, Pointer.Grammar.IsNameChar c

namespace Pointer.Grammar

variable {s text rest : List Char} {step : Step} {steps : List Step} {p : IndexedPointer}

/-! ### Only words are read -/

theorem StepText.isWord (h : StepText text step) : step.name.IsWord := by
  cases h with
  | intro _ hne hname _ => simpa [Name.IsWord] using ⟨hne, hname⟩

theorem More.forall_isWord (h : More text steps) : ∀ step ∈ steps, step.name.IsWord := by
  induction h with
  | nil => exact nofun
  | cons _ htext _ ih => exact List.forall_mem_cons.2 ⟨htext.isWord, ih⟩

/-- A text that derives from the grammar has steps, and words for names. -/
theorem Derives.words (h : Derives s steps) : steps ≠ [] ∧ ∀ step ∈ steps, step.name.IsWord := by
  cases h with
  | intro _ htext hrest _ =>
    exact ⟨List.cons_ne_nil _ _, List.forall_mem_cons.2 ⟨htext.isWord, hrest.forall_isWord⟩⟩

/-! ### Words are shown as texts of the grammar -/

/-- The digits of an index, in brackets. -/
theorem index_toDigits (index : UInt64) :
    Index ('[' :: (Nat.toDigits 10 index.toNat ++ [']'])) (some index) := by
  have hdigits : ∀ c ∈ Nat.toDigits 10 index.toNat, IsDigit c := fun c hc =>
    Reader.isDigit_iff.1 (Nat.isDigit_of_mem_toDigits (by decide) (by decide) hc)
  have hvalue : numeral (Nat.toDigits 10 index.toNat) = index.toNat :=
    Nat.ofDigitChars_toDigits (by decide) (by decide)
  have hblanks : Blanks [] := nofun
  have hindex := Index.some hblanks Nat.toDigits_ne_nil hdigits hblanks hvalue
  rwa [List.nil_append, List.append_nil] at hindex

theorem stepText_render (h : step.name.IsWord) : StepText step.render.toList step := by
  obtain ⟨⟨text⟩, index⟩ := step
  obtain ⟨hne, hname⟩ := h
  have hcolon : Perhaps ':' [':'] := .inr rfl
  cases index with
  | none => simpa [Step.render, Name.symbol] using StepText.intro hcolon hne hname .none
  | some index =>
    simpa [Step.render, Name.symbol] using StepText.intro hcolon hne hname (index_toDigits index)

/-- The steps behind the first one, each with a comma and a blank in front. -/
theorem more_render (h : ∀ step ∈ steps, step.name.IsWord) :
    More (steps.flatMap fun step => ", ".toList ++ step.render.toList) steps := by
  induction steps with
  | nil => exact .nil
  | cons step rest ih =>
    obtain ⟨hstep, hrest⟩ := List.forall_mem_cons.1 h
    exact .cons (.comma Reader.blanks_nil Reader.blanks_space) (stepText_render hstep) (ih hrest)

/-- Steps that have words for names are shown as a text that derives from the grammar. -/
theorem derives_render (hne : p.steps ≠ []) (h : ∀ step ∈ p.steps, step.name.IsWord) :
    Derives p.render.toList p.steps := by
  obtain ⟨steps⟩ := p
  cases steps with
  | nil => exact absurd rfl hne
  | cons step rest =>
    obtain ⟨hstep, hrest⟩ := List.forall_mem_cons.1 h
    have hopening : Bracket '[' ['['] := ⟨[], ['['], [], nofun, .inr rfl, nofun, rfl⟩
    have hclosing : Bracket ']' [']'] := ⟨[], [']'], [], nofun, .inr rfl, nofun, rfl⟩
    have hderives := Derives.intro hopening (stepText_render hstep) (more_render hrest) hclosing
    rw [IndexedPointer.render, String.toList_append, String.toList_append, String.toList_intercalate,
      List.map_cons, List.map_cons, Text.intercalate_cons, List.map_map, List.flatMap_map, ← List.append_assoc]
    exact hderives

end Pointer.Grammar

open Pointer.Grammar

/-- What is shown of an indexed pointer is read back exactly if there is a step and all names are words. -/
theorem IndexedPointer.ofText_render_eq_ok_iff {p : IndexedPointer} :
    ofText p.render = .ok p ↔ p.steps ≠ [] ∧ ∀ step ∈ p.steps, step.name.IsWord := by
  rw [ofText_eq_ok_iff, Pointer.Reader.readSteps_eq_ok_iff]
  constructor
  · exact Derives.words
  · rintro ⟨hne, hwords⟩
    exact derives_render hne hwords

namespace Pointer

variable {p : Pointer} {text : String}

/-- A pointer is shown as the steps that ask for no particular node. -/
theorem render_ofPointer (p : Pointer) : (IndexedPointer.ofPointer p).render = p.render := by
  rw [IndexedPointer.render, IndexedPointer.ofPointer, List.map_map]
  rfl

/-- The names of a pointer that was read are words, and there is one. -/
theorem words_of_ofText (h : ofText text = .ok p) :
    p.segments ≠ [] ∧ ∀ name ∈ p.segments, name.IsWord := by
  obtain ⟨steps, hsteps, -, hnames⟩ := ofText_eq_ok_iff.1 h
  obtain ⟨hne, hwords⟩ := (Reader.readSteps_eq_ok_iff.1 hsteps).words
  rw [hnames]
  exact ⟨by simpa using hne, by simpa using hwords⟩

/-- What is shown of a pointer is read back exactly if there is a name and all names are words. -/
theorem ofText_render_eq_ok_iff :
    ofText p.render = .ok p ↔ p.segments ≠ [] ∧ ∀ name ∈ p.segments, name.IsWord := by
  constructor
  · exact words_of_ofText
  · rintro ⟨hne, hwords⟩
    have hderives : Derives (IndexedPointer.ofPointer p).render.toList (IndexedPointer.ofPointer p).steps := by
      refine derives_render ?_ ?_
      · simpa [IndexedPointer.ofPointer] using hne
      · simpa [IndexedPointer.ofPointer] using hwords
    rw [render_ofPointer] at hderives
    refine ofText_eq_ok_iff.2 ⟨_, Reader.readSteps_eq_ok_iff.2 hderives, ?_, ?_⟩
    · simp [IndexedPointer.ofPointer]
    · simp [IndexedPointer.ofPointer, Function.comp_def]

/-- Pointers, with indices and without, are read back from what is shown of them exactly if they are not
empty and all their names are words. So whatever was read from a text is read again from what is shown of
it. -/
theorem ofText_render :
    (∀ p : Pointer, ofText p.render = .ok p ↔ p.segments ≠ [] ∧ ∀ name ∈ p.segments, name.IsWord) ∧
    (∀ p : IndexedPointer, IndexedPointer.ofText p.render = .ok p ↔
      p.steps ≠ [] ∧ ∀ step ∈ p.steps, step.name.IsWord) ∧
    (∀ text p, ofText text = .ok p → ofText p.render = .ok p) ∧
    ∀ text p, IndexedPointer.ofText text = .ok p → IndexedPointer.ofText p.render = .ok p := by
  refine ⟨fun p => ofText_render_eq_ok_iff, fun p => IndexedPointer.ofText_render_eq_ok_iff, ?_, ?_⟩
  · intro text p hread
    exact ofText_render_eq_ok_iff.2 (words_of_ofText hread)
  · intro text p hread
    rw [IndexedPointer.ofText_eq_ok_iff, Reader.readSteps_eq_ok_iff] at hread
    exact IndexedPointer.ofText_render_eq_ok_iff.2 hread.words

/-- A pointer that was written in another way, with a slash and with an index that has zeros in front. -/
theorem ofText_render_of_slash :
    IndexedPointer.ofText "person[ 007 ]/name" = .ok ⟨[⟨⟨"person"⟩, some 7⟩, ⟨⟨"name"⟩, none⟩]⟩ ∧
      IndexedPointer.ofText "[:person[7], :name]" = .ok ⟨[⟨⟨"person"⟩, some 7⟩, ⟨⟨"name"⟩, none⟩]⟩ := by
  have hread : IndexedPointer.ofText "person[ 007 ]/name" =
      .ok ⟨[⟨⟨"person"⟩, some 7⟩, ⟨⟨"name"⟩, none⟩]⟩ := by decide +kernel
  have hshown : IndexedPointer.render ⟨[⟨⟨"person"⟩, some 7⟩, ⟨⟨"name"⟩, none⟩]⟩ =
      "[:person[7], :name]" := by decide +kernel
  obtain ⟨-, -, -, hagain⟩ := ofText_render
  have hread' := hagain _ _ hread
  rw [hshown] at hread'
  exact ⟨hread, hread'⟩

end Pointer

end TermAtlas
