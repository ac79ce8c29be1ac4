import Mathlib.Data.List.Basic
import Mathlib.Data.List.TakeWhile
import TermAtlas.Error

/-!
# The grammar of pointers

The texts of pointers derive from a grammar:

    pointer   = blanks [ '[' ] blanks step (separator step)* blanks [ ']' ] blanks
    separator = blanks '/' blanks | blanks ',' blanks | at least one blank
    step      = [ ':' ] name [ '[' blanks digits blanks ']' ]

`Derives` is this grammar as an inductive relation between texts and lists of steps. It says nothing of
how a text is read. A text can be cut in several ways, for blanks may belong to a separator or stand
before a bracket; and reading is greedy, and gives back what it cannot use. Greed does no harm: behind a
step stands nothing that a step could go on with, and a step never begins with what could belong to a
separator.

## What is proved

* `readName?_eq`, `readIndex?_eq`, `readStep?_eq`, `skipSeparator?_eq`, `readMore_eq` — each reader stops
  where the part that it reads ends, if what comes behind is one of the texts that can come there.
* `exists_step`, `exists_separator`, `exists_more` — each reader reads a part of its kind.
* `readSteps_eq_ok_iff` — reading gives the steps of a text exactly if they derive from the grammar.
* `IndexedPointer.ofText_eq_ok_iff_derives` — what this means for pointers, with indices and without.
-/

namespace TermAtlas.Pointer

namespace Grammar

/-! ### Parts of texts -/

/-- A run of spaces, tabs, carriage returns and line feeds. -/
def Blanks (s : List Char) : Prop := ∀ c ∈ s, c = ' ' ∨ c = '\t' ∨ c = '\r' ∨ c = '\n'

/-- One `c`, or nothing. -/
def Perhaps (c : Char) (s : List Char) : Prop := s = [] ∨ s = [c]

/-- A decimal digit. -/
def IsDigit (c : Char) : Prop := '0' ≤ c ∧ c ≤ '9'

instance (c : Char) : Decidable (IsDigit c) := inferInstanceAs (Decidable (_ ∧ _))

/-- A letter or a digit of ASCII, an underscore or a hyphen. -/
def IsNameChar (c : Char) : Prop :=
  ('A' ≤ c ∧ c ≤ 'Z') ∨ ('a' ≤ c ∧ c ≤ 'z') ∨ IsDigit c ∨ c = '_' ∨ c = '-'

instance (c : Char) : Decidable (IsNameChar c) := inferInstanceAs (Decidable (_ ∨ _))

/-- What a decimal numeral stands for. -/
def numeral (digits : List Char) : Nat :=
  digits.foldl (fun value c => 10 * value + (c.toNat - '0'.toNat)) 0

/-- The index behind a name, or nothing. -/
inductive Index : List Char → Option UInt64 → Prop where
  /-- There is no index. -/
  | none : Index [] none
  /-- A numeral of a value below `2 ^ 64` in brackets. -/
  | some {before digits after : List Char} {index : UInt64} : Blanks before → digits ≠ [] →
      (∀ c ∈ digits, IsDigit c) → Blanks after → numeral digits = index.toNat →
      Index ('[' :: (before ++ digits ++ after ++ [']'])) (some index)

/-- One step. -/
inductive StepText : List Char → Step → Prop where
  /-- A name, with an optional colon in front, and its index. -/
  | intro {colon name suffix : List Char} {index : Option UInt64} : Perhaps ':' colon → name ≠ [] →
      (∀ c ∈ name, IsNameChar c) → Index suffix index →
      StepText (colon ++ name ++ suffix) ⟨⟨String.ofList name⟩, index⟩

/-- What stands between two steps. -/
inductive Separator : List Char → Prop where
  /-- A slash between blanks. -/
  | slash {before after : List Char} : Blanks before → Blanks after → Separator (before ++ '/' :: after)
  /-- A comma between blanks. -/
  | comma {before after : List Char} : Blanks before → Blanks after → Separator (before ++ ',' :: after)
  /-- Blanks alone. -/
  | blanks {s : List Char} : Blanks s → s ≠ [] → Separator s

/-- The steps behind the first one. -/
inductive More : List Char → List Step → Prop where
  /-- There are none. -/
  | nil : More [] []
  /-- A separator, a step, and the steps behind it. -/
  | cons {separator text rest : List Char} {step : Step} {steps : List Step} : Separator separator →
      StepText text step → More rest steps → More (separator ++ text ++ rest) (step :: steps)

/-- A text in which an optional bracket stands between blanks. -/
def Bracket (bracket : Char) (s : List Char) : Prop :=
  ∃ before optional after, Blanks before ∧ Perhaps bracket optional ∧ Blanks after ∧
    s = before ++ optional ++ after

/-- `Derives s steps`: the text `s` is a pointer with these steps. -/
inductive Derives : List Char → List Step → Prop where
  /-- The first step and the others between the brackets, each bracket or both of them left out. -/
  | intro {opening text rest closing : List Char} {step : Step} {steps : List Step} :
      Bracket '[' opening → StepText text step → More rest steps → Bracket ']' closing →
      Derives (opening ++ text ++ rest ++ closing) (step :: steps)

end Grammar

namespace Reader

open Grammar

variable {s rest text : List Char} {c : Char} {p : Char → Bool}

/-! ### Characters -/

theorem isBlank_iff : isBlank c = true ↔ c = ' ' ∨ c = '\t' ∨ c = '\r' ∨ c = '\n' := by
  simp [isBlank, or_assoc]

theorem isDigit_iff : c.isDigit = true ↔ IsDigit c := by
  simp [Char.isDigit, IsDigit, Char.le_def]

theorem isUpper_iff : c.isUpper = true ↔ 'A' ≤ c ∧ c ≤ 'Z' := decide_eq_true_iff

theorem isLower_iff : c.isLower = true ↔ 'a' ≤ c ∧ c ≤ 'z' :=
  Bool.and_eq_true_iff.trans (and_congr decide_eq_true_iff decide_eq_true_iff)

theorem isAlpha_iff : c.isAlpha = true ↔ c.isUpper = true ∨ c.isLower = true := Bool.or_eq_true_iff

theorem isNameChar_iff : isNameChar c = true ↔ IsNameChar c := by
  simp only [isNameChar, Char.isAlphanum, IsNameChar, isAlpha_iff, isUpper_iff, isLower_iff, isDigit_iff,
    Bool.or_eq_true, decide_eq_true_eq, or_assoc]

theorem blanks_iff : Blanks s ↔ ∀ c ∈ s, isBlank c = true := by
  simp only [Blanks, isBlank_iff]

theorem blanks_nil : Blanks [] := List.forall_mem_nil _

theorem blanks_space : Blanks [' '] := by simp [Blanks]

theorem blanks_append (hs : Blanks s) (hrest : Blanks rest) : Blanks (s ++ rest) :=
  fun c hc => (List.mem_append.1 hc).elim (hs c) (hrest c)

/-- What a step can begin with. -/
def opensStep (c : Char) : Bool := c = ':' || isNameChar c

/-- What can come right behind a step. -/
def endsStep (c : Char) : Bool := isBlank c || c = '/' || c = ',' || c = ']'

theorem not_isNameChar_of_endsStep (h : endsStep c = true) : isNameChar c = false := by
  simp only [endsStep, isBlank, Bool.or_eq_true, decide_eq_true_eq] at h
  rcases h with (((((rfl | rfl) | rfl) | rfl) | rfl) | rfl) | rfl <;> decide

theorem ne_bracket_of_endsStep (h : endsStep c = true) : c ≠ '[' := by
  rintro rfl
  revert h
  decide

theorem not_endsStep_of_opensStep (h : opensStep c = true) : endsStep c = false := by
  cases hends : endsStep c with
  | false => rfl
  | true =>
    have hname := not_isNameChar_of_endsStep hends
    rw [opensStep, hname, Bool.or_false, decide_eq_true_eq] at h
    subst h
    revert hends
    decide

/-! ### How texts go on -/

/-- The text is over, or it begins with a character of which `p` holds. -/
def GoesOn (p : Char → Bool) (s : List Char) : Prop := ∀ c rest, s = c :: rest → p c = true

theorem goesOn_nil : GoesOn p [] := nofun

theorem goesOn_cons (h : p c = true) : GoesOn p (c :: s) := by
  rintro _ _ ⟨⟩
  exact h

theorem GoesOn.imp {q : Char → Bool} (h : GoesOn p s) (hpq : ∀ c, p c = true → q c = true) :
    GoesOn q s :=
  fun c rest hs => hpq c (h c rest hs)

/-- Text of one kind in front is cut off if what comes behind goes on with something else. -/
theorem takeWhile_append_of_goesOn (h : ∀ c ∈ s, p c = true) (hrest : GoesOn (!p ·) rest) :
    (s ++ rest).takeWhile p = s ∧ (s ++ rest).dropWhile p = rest := by
  rw [List.takeWhile_append_of_pos h, List.dropWhile_append_of_pos h]
  cases rest with
  | nil => simp
  | cons c rest =>
    have hc : p c = false := by simpa using hrest c rest rfl
    simp [hc]

theorem skipBlanks_append (hs : Blanks s) (hrest : GoesOn (!isBlank ·) rest) :
    skipBlanks (s ++ rest) = rest :=
  (takeWhile_append_of_goesOn (blanks_iff.1 hs) hrest).2

theorem skipBlanks_of_goesOn (h : GoesOn (!isBlank ·) s) : skipBlanks s = s :=
  skipBlanks_append (s := []) nofun h

theorem skipBlanks_of_blanks (h : Blanks s) : skipBlanks s = [] := by
  have happend := skipBlanks_append h goesOn_nil
  rwa [List.append_nil] at happend

theorem skipOptional_append {bracket : Char} (hs : Perhaps bracket s)
    (hrest : GoesOn (· ≠ bracket) rest) : skipOptional bracket (s ++ rest) = rest := by
  rcases hs with rfl | rfl
  · cases rest with
    | nil => rfl
    | cons d rest =>
      have hd : d ≠ bracket := by simpa using hrest d rest rfl
      simp [skipOptional, hd]
  · simp [skipOptional]

/-! ### Readers stop where their part ends -/

theorem readName?_eq {colon name : List Char} (hcolon : Perhaps ':' colon) (hne : name ≠ [])
    (hname : ∀ c ∈ name, IsNameChar c) (hrest : GoesOn (!isNameChar ·) rest) :
    readName? (colon ++ name ++ rest) = some (⟨String.ofList name⟩, rest) := by
  have hall : ∀ c ∈ name, isNameChar c = true := fun c hc => isNameChar_iff.2 (hname c hc)
  have hskip : skipOptional ':' (colon ++ name ++ rest) = name ++ rest := by
    rw [List.append_assoc]
    refine skipOptional_append hcolon fun c rest' hs => ?_
    cases name with
    | nil => exact absurd rfl hne
    | cons d name =>
      obtain ⟨rfl, -⟩ := List.cons.inj hs
      have hd := hall d List.mem_cons_self
      simp only [ne_eq, decide_not, Bool.not_eq_true', decide_eq_false_iff_not]
      rintro rfl
      revert hd
      decide
  obtain ⟨htake, hdrop⟩ := takeWhile_append_of_goesOn hall hrest
  simp only [readName?, hskip, htake, hdrop, if_neg hne]

theorem readIndex?_of_goesOn (h : GoesOn (· ≠ '[') s) : readIndex? s = none := by
  unfold readIndex?
  split
  · next rest => exact absurd (h '[' rest rfl) (by decide)
  · rfl

theorem readIndex?_eq {index : UInt64} (h : Index text (some index)) (rest : List Char) :
    readIndex? (text ++ rest) = some (index, rest) := by
  cases h with
  | @some before digits after _ hbefore hne hdigits hafter hvalue =>
    have hall : ∀ c ∈ digits, c.isDigit = true := fun c hc => isDigit_iff.2 (hdigits c hc)
    have hskip : skipBlanks (before ++ (digits ++ (after ++ ']' :: rest))) =
        digits ++ (after ++ ']' :: rest) := by
      refine skipBlanks_append hbefore fun c rest' hs => ?_
      cases digits with
      | nil => exact absurd rfl hne
      | cons d digits =>
        obtain ⟨rfl, -⟩ := List.cons.inj hs
        have hd := hall d List.mem_cons_self
        rw [Bool.not_eq_true', ← Bool.not_eq_true, isBlank_iff]
        rintro (rfl | rfl | rfl | rfl) <;> revert hd <;> decide
    have hstop : GoesOn (!Char.isDigit ·) (after ++ ']' :: rest) := by
      cases after with
      | nil => exact goesOn_cons (by decide)
      | cons d after =>
        refine goesOn_cons ?_
        rcases hafter d List.mem_cons_self with rfl | rfl | rfl | rfl <;> decide
    obtain ⟨htake, hdrop⟩ := takeWhile_append_of_goesOn hall hstop
    have hclose : skipBlanks (after ++ ']' :: rest) = ']' :: rest :=
      skipBlanks_append hafter (goesOn_cons (by decide))
    have htext : '[' :: (before ++ digits ++ after ++ [']']) ++ rest =
        '[' :: (before ++ (digits ++ (after ++ ']' :: rest))) := by simp
    have hnumeral : Nat.ofDigitChars 10 digits 0 = index.toNat := hvalue
    rw [htext, readIndex?]
    simp only [hskip, htake, hdrop, hclose, hnumeral, UInt64.ofNat_toNat]
    rw [if_pos ⟨hne, index.toNat_lt_size⟩]

/-- A step is read up to what can come behind a step. -/
theorem readStep?_eq {step : Step} (h : StepText text step) (hrest : GoesOn endsStep rest) :
    readStep? (text ++ rest) = some (step, rest) := by
  cases h with
  | @intro colon name suffix index hcolon hne hname hindex =>
    cases hindex with
    | none =>
      have hstop : GoesOn (!isNameChar ·) rest :=
        hrest.imp fun c hc => by simp [not_isNameChar_of_endsStep hc]
      have hread := readName?_eq hcolon hne hname hstop
      have hnone : readIndex? rest = none :=
        readIndex?_of_goesOn (hrest.imp fun c hc => by simp [ne_bracket_of_endsStep hc])
      rw [List.append_nil]
      simp only [readStep?, hread, hnone]
    | @some before digits after index hbefore hdigits hall hafter hvalue =>
      have hsome := readIndex?_eq (.some hbefore hdigits hall hafter hvalue) rest
      have hstop : GoesOn (!isNameChar ·) ('[' :: (before ++ digits ++ after ++ [']']) ++ rest) :=
        goesOn_cons (by decide)
      rw [List.append_assoc]
      simp only [readStep?, readName?_eq hcolon hne hname hstop, hsome]

/-- A separator is read up to what a step begins with. -/
theorem skipSeparator?_eq (h : Separator s) {step : Char} (hstep : opensStep step = true) :
    skipSeparator? (s ++ step :: rest) = some (step :: rest) := by
  have hends := not_endsStep_of_opensStep hstep
  simp only [endsStep, Bool.or_eq_false_iff, decide_eq_false_iff_not] at hends
  obtain ⟨⟨⟨hblank, hslash⟩, hcomma⟩, -⟩ := hends
  have hstop : GoesOn (!isBlank ·) (step :: rest) := goesOn_cons (by simp [hblank])
  cases h with
  | @slash before after hbefore hafter =>
    have hskip : skipBlanks (before ++ '/' :: (after ++ step :: rest)) = '/' :: (after ++ step :: rest) :=
      skipBlanks_append hbefore (goesOn_cons (by decide))
    rw [List.append_assoc, List.cons_append, skipSeparator?, hskip]
    simp only [skipBlanks_append hafter hstop]
  | @comma before after hbefore hafter =>
    have hskip : skipBlanks (before ++ ',' :: (after ++ step :: rest)) = ',' :: (after ++ step :: rest) :=
      skipBlanks_append hbefore (goesOn_cons (by decide))
    rw [List.append_assoc, List.cons_append, skipSeparator?, hskip]
    simp only [skipBlanks_append hafter hstop]
  | blanks hblanks hne =>
    rw [skipSeparator?, skipBlanks_append hblanks hstop]
    split
    · next heq => exact absurd (List.cons.inj heq).1 hslash
    · next heq => exact absurd (List.cons.inj heq).1 hcomma
    · cases s with
      | nil => exact absurd rfl hne
      | cons d s => simp [blanks_iff.1 hblanks d List.mem_cons_self]

/-- A step begins with a colon or with a character of its name. -/
theorem exists_cons_of_stepText {step : Step} (h : StepText text step) :
    ∃ c rest, text = c :: rest ∧ opensStep c = true := by
  cases h with
  | @intro colon name suffix index hcolon hne hname hindex =>
    rcases hcolon with rfl | rfl
    · cases name with
      | nil => exact absurd rfl hne
      | cons c name =>
        refine ⟨c, name ++ suffix, rfl, ?_⟩
        rw [opensStep, isNameChar_iff.2 (hname c List.mem_cons_self), Bool.or_true]
    · exact ⟨':', name ++ suffix, rfl, rfl⟩

theorem goesOn_blanks (hs : Blanks s) (hrest : GoesOn endsStep rest) : GoesOn endsStep (s ++ rest) := by
  cases s with
  | nil => exact hrest
  | cons c s =>
    refine goesOn_cons ?_
    simp [endsStep, blanks_iff.1 hs c List.mem_cons_self]

/-- The closing of a pointer is something that can come behind a step. -/
theorem goesOn_bracket (h : Bracket ']' s) : GoesOn endsStep s := by
  obtain ⟨before, optional, after, hbefore, hoptional, hafter, rfl⟩ := h
  rw [List.append_assoc]
  refine goesOn_blanks hbefore ?_
  rcases hoptional with rfl | rfl
  · have hblanks := goesOn_blanks hafter goesOn_nil
    rwa [List.append_nil] at hblanks
  · exact goesOn_cons (by decide)

/-- So are more steps. -/
theorem goesOn_more {steps : List Step} (h : More text steps) (hrest : GoesOn endsStep rest) :
    GoesOn endsStep (text ++ rest) := by
  cases h with
  | nil => exact hrest
  | @cons separator text more step steps hseparator _ _ =>
    rw [List.append_assoc, List.append_assoc]
    cases hseparator with
    | slash hbefore _ =>
      rw [List.append_assoc]
      exact goesOn_blanks hbefore (goesOn_cons (by decide))
    | comma hbefore _ =>
      rw [List.append_assoc]
      exact goesOn_blanks hbefore (goesOn_cons (by decide))
    | blanks hblanks hne =>
      cases separator with
      | nil => exact absurd rfl hne
      | cons c separator =>
        refine goesOn_cons ?_
        simp [endsStep, blanks_iff.1 hblanks c List.mem_cons_self]

/-- What is left of a closing without the blanks in front. -/
theorem skipBlanks_bracket (h : Bracket ']' s) :
    skipBlanks s = [] ∨ ∃ after, Blanks after ∧ skipBlanks s = ']' :: after := by
  obtain ⟨before, optional, after, hbefore, hoptional, hafter, rfl⟩ := h
  rcases hoptional with rfl | rfl
  · left
    rw [List.append_nil, skipBlanks_of_blanks (blanks_append hbefore hafter)]
  · right
    refine ⟨after, hafter, ?_⟩
    rw [List.append_assoc]
    exact skipBlanks_append hbefore (goesOn_cons (by decide))

/-- Reading stops where no step comes behind a separator. -/
theorem readMore_of_no_step (h : ∀ rest, skipSeparator? s = some rest → readStep? rest = none) :
    readMore s = ([], s) := by
  rw [readMore]
  split
  · rfl
  · next rest hrest =>
    split
    · rfl
    · next step behind hread =>
      rw [h rest hrest] at hread
      cases hread

/-- Reading goes on behind the next step. -/
theorem readMore_of_step {step : Step} {behind : List Char} (hrest : skipSeparator? s = some rest)
    (hread : readStep? rest = some (step, behind)) :
    readMore s = (step :: (readMore behind).1, (readMore behind).2) := by
  rw [readMore]
  split
  · next hnone => cases hrest.symm.trans hnone
  · next other hother =>
    obtain rfl := Option.some.inj (hrest.symm.trans hother)
    split
    · next hnone => cases hread.symm.trans hnone
    · next hstep =>
      cases hread.symm.trans hstep
      rfl

/-- No step begins with the closing bracket. -/
theorem readMore_of_close {after : List Char} (h : skipBlanks s = ']' :: after) : readMore s = ([], s) := by
  refine readMore_of_no_step fun rest hrest => ?_
  rw [skipSeparator?, h] at hrest
  obtain rfl := Option.some.inj (Option.ite_none_right_eq_some.1 hrest).2
  rfl

/-- Behind the blanks of a closing no step begins. -/
theorem readMore_bracket (h : Bracket ']' s) : readMore s = ([], s) := by
  rcases skipBlanks_bracket h with hskip | ⟨after, -, hskip⟩
  · refine readMore_of_no_step fun rest hrest => ?_
    rw [skipSeparator?, hskip] at hrest
    obtain rfl := Option.some.inj (Option.ite_none_right_eq_some.1 hrest).2
    rfl
  · exact readMore_of_close hskip

/-- All steps are read up to the closing. -/
theorem readMore_eq {steps : List Step} (h : More text steps) (hrest : Bracket ']' rest) :
    readMore (text ++ rest) = (steps, rest) := by
  induction h with
  | nil => exact readMore_bracket hrest
  | @cons separator text more step steps hseparator htext hmore ih =>
    obtain ⟨c, text, rfl, hc⟩ := exists_cons_of_stepText htext
    have hskip : skipSeparator? (separator ++ (c :: text ++ (more ++ rest))) =
        some (c :: text ++ (more ++ rest)) := skipSeparator?_eq hseparator hc
    have hread : readStep? (c :: text ++ (more ++ rest)) = some (step, more ++ rest) :=
      readStep?_eq htext (goesOn_more hmore (goesOn_bracket hrest))
    rw [List.append_assoc, List.append_assoc, readMore_of_step hskip hread, ih]

theorem closing_bracket (h : Bracket ']' s) : closing s = [] := by
  unfold closing
  rcases skipBlanks_bracket h with hskip | ⟨after, hafter, hskip⟩
  · rw [hskip]
    rfl
  · rw [hskip, skipOptional, if_pos rfl, skipBlanks_of_blanks hafter]

theorem opening_bracket (h : Bracket '[' s) {step : Char} (hstep : opensStep step = true) :
    opening (s ++ step :: rest) = step :: rest := by
  have hends := not_endsStep_of_opensStep hstep
  have hblank : isBlank step = false := by
    simp only [endsStep, Bool.or_eq_false_iff] at hends
    exact hends.1.1.1
  have hbracket : step ≠ '[' := by
    rintro rfl
    revert hstep
    decide
  obtain ⟨before, optional, after, hbefore, hoptional, hafter, rfl⟩ := h
  have hstop : GoesOn (!isBlank ·) (step :: rest) := goesOn_cons (by simp [hblank])
  unfold opening
  rcases hoptional with rfl | rfl
  · rw [List.append_nil, skipBlanks_append (blanks_append hbefore hafter) hstop, skipOptional,
      if_neg hbracket, skipBlanks_of_goesOn hstop]
  · have hskip : skipBlanks (before ++ ['['] ++ after ++ step :: rest) = '[' :: (after ++ step :: rest) := by
      simp only [List.append_assoc]
      exact skipBlanks_append hbefore (goesOn_cons (by decide))
    rw [hskip, skipOptional, if_pos rfl, skipBlanks_append hafter hstop]

/-- What derives from the grammar is read. -/
theorem readSteps_of_derives {steps : List Step} (h : Derives s steps) : readSteps s = .ok steps := by
  cases h with
  | @intro opening text rest closing step steps hopening htext hrest hclosing =>
    obtain ⟨c, text, rfl, hc⟩ := exists_cons_of_stepText htext
    have hstart : Reader.opening (opening ++ (c :: text ++ (rest ++ closing))) =
        c :: text ++ (rest ++ closing) := opening_bracket hopening hc
    have hread : readStep? (c :: text ++ (rest ++ closing)) = some (step, rest ++ closing) :=
      readStep?_eq htext (goesOn_more hrest (goesOn_bracket hclosing))
    rw [List.append_assoc, List.append_assoc, readSteps]
    simp only [hstart, hread, readMore_eq hrest hclosing, closing_bracket hclosing]

/-! ### Readers read a part of their kind -/

theorem exists_blanks (s : List Char) : ∃ blanks, Blanks blanks ∧ s = blanks ++ skipBlanks s :=
  ⟨s.takeWhile isBlank, blanks_iff.2 fun _ hc => List.mem_takeWhile_imp hc,
    List.takeWhile_append_dropWhile.symm⟩

theorem exists_optional (bracket : Char) (s : List Char) :
    ∃ optional, Perhaps bracket optional ∧ s = optional ++ skipOptional bracket s := by
  cases s with
  | nil => exact ⟨[], .inl rfl, rfl⟩
  | cons c s =>
    rw [skipOptional]
    split
    · next h =>
      subst h
      exact ⟨[c], .inr rfl, rfl⟩
    · exact ⟨[], .inl rfl, rfl⟩

theorem exists_bracket (bracket : Char) (s : List Char) :
    ∃ front, Bracket bracket front ∧
      s = front ++ skipBlanks (skipOptional bracket (skipBlanks s)) := by
  obtain ⟨before, hbefore, hs⟩ := exists_blanks s
  obtain ⟨optional, hoptional, hs₁⟩ := exists_optional bracket (skipBlanks s)
  obtain ⟨after, hafter, hs₂⟩ := exists_blanks (skipOptional bracket (skipBlanks s))
  refine ⟨before ++ optional ++ after, ⟨before, optional, after, hbefore, hoptional, hafter, rfl⟩, ?_⟩
  rw [List.append_assoc, List.append_assoc, ← hs₂, ← hs₁, ← hs]

theorem exists_index {index : UInt64} (h : readIndex? s = some (index, rest)) :
    ∃ text, Index text (some index) ∧ s = text ++ rest := by
  unfold readIndex? at h
  split at h
  · next s =>
    dsimp only at h
    split at h
    · next behind hclose =>
      simp only [Option.ite_none_right_eq_some, Option.some.injEq, Prod.mk.injEq] at h
      obtain ⟨⟨hne, hlt⟩, rfl, rfl⟩ := h
      obtain ⟨before, hbefore, hs⟩ := exists_blanks s
      obtain ⟨after, hafter, hs₁⟩ := exists_blanks ((skipBlanks s).dropWhile Char.isDigit)
      have hdigits : ∀ c ∈ (skipBlanks s).takeWhile Char.isDigit, IsDigit c :=
        fun c hc => isDigit_iff.1 (List.mem_takeWhile_imp hc)
      have hvalue : numeral ((skipBlanks s).takeWhile Char.isDigit) =
          (UInt64.ofNat (Nat.ofDigitChars 10 ((skipBlanks s).takeWhile Char.isDigit) 0)).toNat :=
        (UInt64.toNat_ofNat_of_lt' hlt).symm
      have hsplit : skipBlanks s = (skipBlanks s).takeWhile Char.isDigit ++ (after ++ ']' :: behind) := by
        rw [← hclose, ← hs₁, List.takeWhile_append_dropWhile]
      refine ⟨_, .some hbefore hne hdigits hafter hvalue, ?_⟩
      generalize (skipBlanks s).takeWhile Char.isDigit = digits at hsplit ⊢
      calc '[' :: s = '[' :: (before ++ (digits ++ (after ++ ']' :: behind))) := by rw [← hsplit, ← hs]
        _ = '[' :: (before ++ digits ++ after ++ [']']) ++ behind := by simp
    · cases h
  · cases h

theorem exists_step {step : Step} (h : readStep? s = some (step, rest)) :
    ∃ text, StepText text step ∧ s = text ++ rest := by
  unfold readStep? at h
  split at h
  · cases h
  · next name behind hname =>
    simp only [readName?, Option.ite_none_left_eq_some, Option.some.injEq, Prod.mk.injEq] at hname
    obtain ⟨hne, rfl, rfl⟩ := hname
    obtain ⟨colon, hcolon, hs⟩ := exists_optional ':' s
    have hall : ∀ c ∈ (skipOptional ':' s).takeWhile isNameChar, IsNameChar c :=
      fun c hc => isNameChar_iff.1 (List.mem_takeWhile_imp hc)
    have hsplit := List.takeWhile_append_dropWhile (p := isNameChar) (l := skipOptional ':' s)
    split at h
    · cases h
      refine ⟨_, .intro hcolon hne hall .none, ?_⟩
      rw [List.append_nil, List.append_assoc, hsplit, ← hs]
    · next index behind hindex =>
      cases h
      obtain ⟨suffix, hsuffix, hs₁⟩ := exists_index hindex
      refine ⟨_, .intro hcolon hne hall hsuffix, ?_⟩
      rw [List.append_assoc, List.append_assoc, ← hs₁, hsplit, ← hs]

theorem exists_separator (h : skipSeparator? s = some rest) :
    ∃ separator, Separator separator ∧ s = separator ++ rest := by
  obtain ⟨before, hbefore, hs⟩ := exists_blanks s
  unfold skipSeparator? at h
  split at h
  · next behind hskip =>
    cases h
    obtain ⟨after, hafter, hs₁⟩ := exists_blanks behind
    refine ⟨_, .slash hbefore hafter, ?_⟩
    rw [List.append_assoc, List.cons_append, ← hs₁, ← hskip, ← hs]
  · next behind hskip =>
    cases h
    obtain ⟨after, hafter, hs₁⟩ := exists_blanks behind
    refine ⟨_, .comma hbefore hafter, ?_⟩
    rw [List.append_assoc, List.cons_append, ← hs₁, ← hskip, ← hs]
  · simp only [Option.ite_none_right_eq_some, Option.some.injEq] at h
    obtain ⟨hblank, rfl⟩ := h
    refine ⟨before, .blanks hbefore ?_, hs⟩
    rintro rfl
    -- a blank in front is skipped, so something is
    cases s with
    | nil => cases hblank
    | cons c s =>
      have hc : isBlank c = true := by simpa using hblank
      have hlength := congrArg List.length hs
      have hle := length_skipBlanks_le s
      rw [List.nil_append, skipBlanks, List.dropWhile_cons, if_pos hc, List.length_cons] at hlength
      unfold skipBlanks at hle
      omega

theorem exists_more (s : List Char) :
    ∃ text, More text (readMore s).1 ∧ s = text ++ (readMore s).2 := by
  fun_induction readMore s with
  | case1 s hs => exact ⟨[], .nil, rfl⟩
  | case2 s s' hs hstep => exact ⟨[], .nil, rfl⟩
  | case3 s s' hs step behind hstep steps rest hmore ih =>
    obtain ⟨separator, hseparator, rfl⟩ := exists_separator hs
    obtain ⟨text, htext, rfl⟩ := exists_step hstep
    rw [hmore] at ih
    obtain ⟨more, hsteps, rfl⟩ := ih
    refine ⟨_, .cons hseparator htext hsteps, ?_⟩
    simp only [List.append_assoc]

/-- What is read up to where reading stops derives from the grammar. -/
theorem exists_derives {step : Step} {behind : List Char} (hstep : readStep? (opening s) = some (step, behind)) :
    ∃ front, Derives front (step :: (readMore behind).1) ∧ s = front ++ closing (readMore behind).2 := by
  obtain ⟨front, hfront, hs⟩ := exists_bracket '[' s
  obtain ⟨text, htext, hs₁⟩ := exists_step hstep
  obtain ⟨more, hmore, hs₂⟩ := exists_more behind
  obtain ⟨back, hback, hs₃⟩ := exists_bracket ']' (readMore behind).2
  refine ⟨front ++ text ++ more ++ back, .intro hfront htext hmore hback, ?_⟩
  calc s = front ++ opening s := hs
    _ = front ++ (text ++ (more ++ (back ++ closing (readMore behind).2))) := by
      rw [hs₁]
      conv_lhs => rw [hs₂, hs₃]
      rfl
    _ = front ++ text ++ more ++ back ++ closing (readMore behind).2 := by simp only [List.append_assoc]

/-- What is read derives from the grammar. -/
theorem derives_of_readSteps {steps : List Step} (h : readSteps s = .ok steps) : Derives s steps := by
  unfold readSteps at h
  dsimp only at h
  split at h
  · cases h
  · next step behind hstep =>
    split at h
    · next hclosing =>
      obtain rfl := Except.ok.inj h
      obtain ⟨front, hderives, hs⟩ := exists_derives hstep
      rw [hclosing, List.append_nil] at hs
      rwa [hs]
    · cases h

/-- Reading gives the steps of a text exactly if they derive from the grammar. -/
theorem readSteps_eq_ok_iff {steps : List Step} : readSteps s = .ok steps ↔ Derives s steps :=
  ⟨derives_of_readSteps, readSteps_of_derives⟩

end Reader

/-- A text has one list of steps only, however it is cut. -/
theorem Grammar.Derives.unique {s : List Char} {steps others : List Step} (h : Derives s steps)
    (h' : Derives s others) : others = steps :=
  Except.ok.inj ((Reader.readSteps_of_derives h').symm.trans (Reader.readSteps_of_derives h))

/-! ### Pointers with and without indices -/

theorem parse_eq_ok_iff {text : String} {p : IndexedPointer} :
    IndexedPointer.parse text = .ok p ↔ Reader.readSteps text.toList = .ok p.steps := by
  unfold IndexedPointer.parse
  cases Reader.readSteps text.toList with
  | error fault => simp [Except.map]
  | ok steps =>
    simp only [Except.map, Except.ok.injEq]
    exact ⟨fun h => h ▸ rfl, fun h => h ▸ rfl⟩

end Pointer

theorem IndexedPointer.ofText_eq_ok_iff {text : String} {p : IndexedPointer} :
    IndexedPointer.ofText text = .ok p ↔ Pointer.Reader.readSteps text.toList = .ok p.steps := by
  rw [← Pointer.parse_eq_ok_iff, IndexedPointer.ofText]
  cases IndexedPointer.parse text <;> simp [Except.mapError]

theorem Pointer.ofText_eq_ok_iff {text : String} {p : Pointer} :
    Pointer.ofText text = .ok p ↔ ∃ steps, Pointer.Reader.readSteps text.toList = .ok steps ∧
      (∀ step ∈ steps, step.index = none) ∧ p.segments = steps.map Step.name := by
  unfold Pointer.ofText Pointer.parse
  cases hread : IndexedPointer.parse text with
  | error fault =>
    have hnot : ∀ steps, Pointer.Reader.readSteps text.toList ≠ .ok steps := by
      intro steps hsteps
      have hok : IndexedPointer.parse text = .ok ⟨steps⟩ := parse_eq_ok_iff.2 hsteps
      rw [hread] at hok
      cases hok
    simp [Except.mapError, hnot]
  | ok read =>
    have hsteps : Pointer.Reader.readSteps text.toList = .ok read.steps := parse_eq_ok_iff.1 hread
    simp only [hsteps, Except.ok.injEq, exists_eq_left', List.all_eq_true, Option.isNone_iff_eq_none]
    by_cases hindex : ∀ step ∈ read.steps, step.index = none
    · rw [if_pos hindex]
      simp only [Except.mapError, Except.ok.injEq, IndexedPointer.toPointer]
      exact ⟨fun h => ⟨hindex, h ▸ rfl⟩, fun h => (Pointer.mk.injEq _ _).mpr h.2.symm⟩
    · simp [Except.mapError, hindex]

open Pointer.Grammar in
/-- Reading accepts the texts that derive from the grammar and gives the steps, which are the same
however the text is cut. A pointer without indices is read from those texts whose steps have none. -/
theorem IndexedPointer.ofText_eq_ok_iff_derives (text : String) :
    (∀ steps, Pointer.Reader.readSteps text.toList = .ok steps ↔ Derives text.toList steps) ∧
    (∀ steps others, Derives text.toList steps → Derives text.toList others → others = steps) ∧
    (∀ p, IndexedPointer.ofText text = .ok p ↔ Derives text.toList p.steps) ∧
    (∀ p, Pointer.ofText text = .ok p ↔ ∃ steps, Derives text.toList steps ∧
      (∀ step ∈ steps, step.index = none) ∧ p.segments = steps.map Step.name) := by
  refine ⟨fun steps => Pointer.Reader.readSteps_eq_ok_iff, fun steps others h h' => h.unique h',
    fun p => ?_, fun p => ?_⟩
  · rw [ofText_eq_ok_iff, Pointer.Reader.readSteps_eq_ok_iff]
  · simp only [Pointer.ofText_eq_ok_iff, Pointer.Reader.readSteps_eq_ok_iff]

open Pointer.Grammar in
/-- The blank before the closing bracket looks like a separator, but no step follows it. With an index
in it, the text is no pointer without indices. -/
theorem IndexedPointer.ofText_trailing_blank :
    Derives "[ :person[ 3 ] , name ]".toList [⟨⟨"person"⟩, some 3⟩, ⟨⟨"name"⟩, none⟩] ∧
      IndexedPointer.ofText "[ :person[ 3 ] , name ]" =
        .ok ⟨[⟨⟨"person"⟩, some 3⟩, ⟨⟨"name"⟩, none⟩]⟩ ∧
      ∀ p, Pointer.ofText "[ :person[ 3 ] , name ]" ≠ .ok p := by
  have hblank : Blanks [' '] := by simp [Blanks]
  have hopening : Bracket '[' "[ ".toList := ⟨[], ['['], [' '], nofun, .inr rfl, hblank, rfl⟩
  have hclosing : Bracket ']' " ]".toList := ⟨[' '], [']'], [], hblank, .inr rfl, nofun, rfl⟩
  have hdigits : ∀ c ∈ ['3'], IsDigit c := List.forall_iff_forall_mem.1 (by decide)
  have hindex : Index "[ 3 ]".toList (some 3) :=
    .some hblank (List.cons_ne_nil _ _) hdigits hblank (by decide)
  have hchars : ∀ c ∈ "person".toList, IsNameChar c := List.forall_iff_forall_mem.1 (by decide)
  have hperson : StepText ":person[ 3 ]".toList ⟨⟨"person"⟩, some 3⟩ :=
    .intro (.inr rfl) (by decide) hchars hindex
  have hchars' : ∀ c ∈ "name".toList, IsNameChar c := List.forall_iff_forall_mem.1 (by decide)
  have hname : StepText "name".toList ⟨⟨"name"⟩, none⟩ := .intro (.inl rfl) (by decide) hchars' .none
  have hmore : More " , name".toList [⟨⟨"name"⟩, none⟩] := .cons (.comma hblank hblank) hname .nil
  have hderives : Derives "[ :person[ 3 ] , name ]".toList
      [⟨⟨"person"⟩, some 3⟩, ⟨⟨"name"⟩, none⟩] := .intro hopening hperson hmore hclosing
  obtain ⟨-, hunique, hindexed, hplain⟩ := ofText_eq_ok_iff_derives "[ :person[ 3 ] , name ]"
  refine ⟨hderives, (hindexed ⟨_⟩).2 hderives, fun p hp => ?_⟩
  obtain ⟨steps, hsteps, hnone, -⟩ := (hplain p).1 hp
  obtain rfl := hunique _ _ hderives hsteps
  cases hnone _ List.mem_cons_self

end TermAtlas
