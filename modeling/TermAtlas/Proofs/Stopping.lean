import TermAtlas.Proofs.Grammar

/-!
# Where reading stops

A text that is no pointer is refused at one place. Reading is greedy and stops for good where it cannot go on, and
this is as far as one can get at all: up to there the text is a pointer, and no longer front part of it is one. If
not even a first name can be read, then no front part is a pointer, and the place is where the name should start.

It is not enough that what is read derives from the grammar. A front part may end within a name that goes on, or
its last blanks may belong to a separator, and then reading does not stop where the front part ends. But it never
stops before: whatever stands behind a pointer, what is left when reading stops is the end of what stands there
(`Reader.exists_step_of_derives`).

## What is proved

* `Reader.left_of_lead` — reading gets past all that can stand in front of a name.
* `Reader.readStep?_append`, `Reader.left_of_bracket`, `Reader.left_of_more` — it gets past each part of a pointer.
* `Reader.readSteps_eq_noName_iff`, `Reader.readSteps_eq_leftover_iff` — why a text is refused, and where.
* `parse_eq_error_iff` — what this means for the errors that are shown.
-/

namespace TermAtlas.Pointer

open Grammar

/-- `front` is the longest of the front parts of `s` of which `P` holds. -/
structure Longest (P : List Char → Prop) (s front : List Char) : Prop where
  holds : P front
  begins : front <+: s
  longest : ∀ other, P other → other <+: s → other <+: front

/-- What can stand in front of the first name. -/
def Grammar.Lead (s : List Char) : Prop :=
  ∃ opening colon, Bracket '[' opening ∧ Perhaps ':' colon ∧ s = opening ++ colon

/-- The text is a pointer, perhaps with indices. -/
def Accepted (s : List Char) : Prop := ∃ p, IndexedPointer.parse (String.ofList s) = .ok p

theorem accepted_iff {s : List Char} : Accepted s ↔ ∃ steps, Derives s steps := by
  simp only [Accepted, parse_eq_ok_iff, String.toList_ofList, Reader.readSteps_eq_ok_iff]
  constructor
  · rintro ⟨p, h⟩
    exact ⟨p.steps, h⟩
  · rintro ⟨steps, h⟩
    exact ⟨⟨steps⟩, h⟩

/-- If a front part of which `P` holds leaves no more than any other does, it is the longest. -/
theorem longest_iff {P : List Char → Prop} {s left front : List Char}
    (hfront : ∃ front, P front ∧ s = front ++ left)
    (hleft : ∀ other rest, P other → s = other ++ rest → left <:+ rest) :
    Longest P s front ↔ front ++ left = s := by
  obtain ⟨first, hfirst, rfl⟩ := hfront
  have hlongest : Longest P (first ++ left) first := by
    refine ⟨hfirst, List.prefix_append _ _, ?_⟩
    rintro other hother ⟨rest, hrest⟩
    obtain ⟨between, rfl⟩ := hleft other rest hother hrest.symm
    rw [← List.append_assoc] at hrest
    exact ⟨between, List.append_cancel_right hrest⟩
  constructor
  · intro h
    have hsame : front = first := by
      refine (hlongest.longest front h.holds h.begins).eq_of_length_le ?_
      exact (h.longest first hfirst hlongest.begins).length_le
    rw [hsame]
  · intro h
    rwa [List.append_cancel_right h]

namespace Reader

variable {s rest text tail : List Char} {step : Step} {steps : List Step} {o : Nat}

/-! ### What is left is an end -/

theorem skipBlanks_suffix (s : List Char) : skipBlanks s <:+ s := List.dropWhile_suffix _

theorem skipOptional_suffix (c : Char) (s : List Char) : skipOptional c s <:+ s := by
  obtain ⟨optional, -, hs⟩ := exists_optional c s
  exact ⟨optional, hs.symm⟩

theorem readStep?_suffix (h : readStep? s = some (step, rest)) : rest <:+ s := by
  obtain ⟨text, -, rfl⟩ := exists_step h
  exact List.suffix_append text rest

theorem skipSeparator?_suffix (h : skipSeparator? s = some rest) : rest <:+ skipBlanks s := by
  unfold skipSeparator? at h
  split at h
  · next behind hskip =>
    cases h
    rw [hskip]
    exact (skipBlanks_suffix behind).trans (List.suffix_cons _ _)
  · next behind hskip =>
    cases h
    rw [hskip]
    exact (skipBlanks_suffix behind).trans (List.suffix_cons _ _)
  · obtain rfl := Option.some.inj (Option.ite_none_right_eq_some.1 h).2
    exact List.suffix_rfl

theorem readMore_suffix (s : List Char) : (readMore s).2 <:+ s := by
  obtain ⟨text, -, hs⟩ := exists_more s
  exact ⟨text, hs.symm⟩

theorem closing_suffix (s : List Char) : closing s <:+ s := by
  obtain ⟨front, -, hs⟩ := exists_bracket ']' s
  exact ⟨front, hs.symm⟩

/-- What is left behind all further steps and the closing. -/
theorem left_suffix (s : List Char) : closing (readMore s).2 <:+ s :=
  (closing_suffix _).trans (readMore_suffix s)

/-! ### The front of a pointer -/

theorem skipBlanks_blanks_append (h : Blanks s) (rest : List Char) : skipBlanks (s ++ rest) = skipBlanks rest :=
  List.dropWhile_append_of_pos (blanks_iff.1 h)

/-- Of an opening with a bracket nothing is left but what stands behind it; without one it does not matter. -/
theorem opening_append (h : Bracket '[' s) (rest : List Char) :
    opening (s ++ rest) = opening rest ∨ opening (s ++ rest) = skipBlanks rest := by
  obtain ⟨before, optional, after, hbefore, rfl | rfl, hafter, rfl⟩ := h
  · left
    rw [List.append_nil, opening, skipBlanks_blanks_append (blanks_append hbefore hafter), opening]
  · right
    have hskip : skipBlanks (before ++ ['['] ++ after ++ rest) = '[' :: (after ++ rest) := by
      simp only [List.append_assoc]
      exact skipBlanks_append hbefore (goesOn_cons (by decide))
    rw [opening, hskip, skipOptional, if_pos rfl, skipBlanks_blanks_append hafter]

/-- Reading gets past all that can stand in front of a name. -/
theorem left_of_lead (h : Lead s) (rest : List Char) : skipOptional ':' (opening (s ++ rest)) <:+ rest := by
  obtain ⟨front, colon, hfront, rfl | rfl, rfl⟩ := h
  · have hopening : opening (front ++ [] ++ rest) <:+ rest := by
      rw [List.append_nil]
      rcases opening_append hfront rest with h | h
      · rw [h]
        exact ((skipBlanks_suffix _).trans (skipOptional_suffix _ _)).trans (skipBlanks_suffix _)
      · rw [h]
        exact skipBlanks_suffix rest
    exact (skipOptional_suffix _ _).trans hopening
  · have hopening : opening (front ++ [':'] ++ rest) = ':' :: rest := by
      rw [List.append_assoc]
      exact opening_bracket hfront (by decide)
    have hskip : skipOptional ':' (':' :: rest) = rest := by rw [skipOptional, if_pos rfl]
    exact ⟨[], by rw [hopening, hskip, List.nil_append]⟩

theorem exists_lead (s : List Char) : ∃ front, Lead front ∧ s = front ++ skipOptional ':' (opening s) := by
  obtain ⟨front, hfront, hs⟩ := exists_bracket '[' s
  obtain ⟨colon, hcolon, hs₁⟩ := exists_optional ':' (opening s)
  refine ⟨front ++ colon, ⟨front, colon, hfront, hcolon, rfl⟩, ?_⟩
  rw [List.append_assoc, ← hs₁]
  exact hs

theorem longest_lead_iff {front : List Char} :
    Longest Lead s front ↔ front ++ skipOptional ':' (opening s) = s := by
  refine longest_iff (exists_lead s) ?_
  rintro other rest hother rfl
  exact left_of_lead hother rest

/-! ### Reading does not stop before -/

theorem goesOn_dropWhile (p : Char → Bool) (s : List Char) : GoesOn (!p ·) (s.dropWhile p) := by
  intro c rest h
  have hhead := List.head?_dropWhile_not p s
  rw [h] at hhead
  simpa using hhead

theorem goesOn_index {index : UInt64} (h : Index text (some index)) (rest : List Char) :
    GoesOn (!isNameChar ·) (text ++ rest) := by
  cases h
  exact goesOn_cons (by decide)

/-- A step is read as it stands. If nothing stands between the step and what comes behind the pointer, its name may
go on there, or an index may come. -/
theorem readStep?_append (h : StepText text step) (hrest : GoesOn endsStep rest) (tail : List Char) :
    ∃ step' behind, readStep? (text ++ (rest ++ tail)) = some (step', behind) ∧
      (behind = rest ++ tail ∨ behind <:+ tail) := by
  cases rest with
  | cons c rest =>
    exact ⟨step, _, readStep?_eq h (goesOn_cons (hrest c rest rfl)), .inl rfl⟩
  | nil =>
    obtain @⟨colon, name, suffix, index, hcolon, hne, hname, hindex⟩ := h
    rw [List.nil_append]
    cases index with
    | none =>
      obtain rfl : suffix = [] := by cases hindex; rfl
      have hlonger : name ++ tail.takeWhile isNameChar ≠ [] := List.append_ne_nil_of_left_ne_nil hne _
      have hall : ∀ c ∈ name ++ tail.takeWhile isNameChar, IsNameChar c := by
        intro c hc
        rcases List.mem_append.1 hc with hc | hc
        · exact hname c hc
        · exact isNameChar_iff.1 (List.mem_takeWhile_imp hc)
      have hread := readName?_eq hcolon hlonger hall (goesOn_dropWhile isNameChar tail)
      have htext : colon ++ (name ++ tail.takeWhile isNameChar) ++ tail.dropWhile isNameChar =
          colon ++ name ++ [] ++ tail := by simp
      rw [htext] at hread
      cases hbehind : readIndex? (tail.dropWhile isNameChar) with
      | none =>
        have hsuffix : tail.dropWhile isNameChar <:+ tail := List.dropWhile_suffix _
        refine ⟨⟨⟨String.ofList (name ++ tail.takeWhile isNameChar)⟩, none⟩, _, ?_, .inr hsuffix⟩
        simp only [readStep?, hread, hbehind]
      | some found =>
        obtain ⟨value, behind⟩ := found
        obtain ⟨_, -, hs⟩ := exists_index hbehind
        have hsuffix : behind <:+ tail := List.IsSuffix.trans ⟨_, hs.symm⟩ (List.dropWhile_suffix _)
        refine ⟨⟨⟨String.ofList (name ++ tail.takeWhile isNameChar)⟩, some value⟩, behind, ?_, .inr hsuffix⟩
        simp only [readStep?, hread, hbehind]
    | some index =>
      have hread := readName?_eq hcolon hne hname (goesOn_index hindex tail)
      have hvalue := readIndex?_eq hindex tail
      refine ⟨⟨⟨String.ofList name⟩, some index⟩, tail, ?_, .inl rfl⟩
      rw [List.append_assoc]
      simp only [readStep?, hread, hvalue]

/-- A closing is passed, whatever comes behind it. If it has no bracket, its blanks may belong to a separator. -/
theorem left_of_bracket (h : Bracket ']' s) (tail : List Char) : closing (readMore (s ++ tail)).2 <:+ tail := by
  obtain ⟨before, optional, after, hbefore, rfl | rfl, hafter, rfl⟩ := h
  · have hblanks : Blanks (before ++ [] ++ after) := by
      rw [List.append_nil]
      exact blanks_append hbefore hafter
    have hskip := skipBlanks_blanks_append hblanks tail
    by_cases hmore : ∃ rest found, skipSeparator? (before ++ [] ++ after ++ tail) = some rest ∧
        readStep? rest = some found
    · obtain ⟨rest, ⟨step, behind⟩, hrest, hread⟩ := hmore
      have hsuffix : rest <:+ tail := (skipSeparator?_suffix hrest).trans (hskip ▸ skipBlanks_suffix tail)
      rw [readMore_of_step hrest hread]
      exact (left_suffix behind).trans ((readStep?_suffix hread).trans hsuffix)
    · have hno : readMore (before ++ [] ++ after ++ tail) = ([], before ++ [] ++ after ++ tail) := by
        refine readMore_of_no_step fun rest hrest => ?_
        cases hread : readStep? rest with
        | none => rfl
        | some found => exact absurd ⟨rest, found, hrest, hread⟩ hmore
      rw [hno, closing, hskip]
      exact closing_suffix tail
  · have hskip : skipBlanks (before ++ [']'] ++ after ++ tail) = ']' :: (after ++ tail) := by
      simp only [List.append_assoc]
      exact skipBlanks_append hbefore (goesOn_cons (by decide))
    rw [readMore_of_close hskip, closing, hskip, skipOptional, if_pos rfl, skipBlanks_blanks_append hafter]
    exact skipBlanks_suffix tail

/-- So are all further steps with the closing behind them. -/
theorem left_of_more (h : More text steps) (hrest : Bracket ']' rest) (tail : List Char) :
    closing (readMore (text ++ rest ++ tail)).2 <:+ tail := by
  induction h with
  | nil => exact left_of_bracket hrest tail
  | @cons separator text more step steps hseparator htext hmore ih =>
    obtain ⟨step', behind, hread, hbehind⟩ := readStep?_append htext (goesOn_more hmore (goesOn_bracket hrest)) tail
    obtain ⟨c, text, rfl, hc⟩ := exists_cons_of_stepText htext
    have hskip : skipSeparator? (separator ++ (c :: text ++ (more ++ rest ++ tail))) =
        some (c :: text ++ (more ++ rest ++ tail)) := skipSeparator?_eq hseparator hc
    have hs : separator ++ (c :: text) ++ more ++ rest ++ tail =
        separator ++ (c :: text ++ (more ++ rest ++ tail)) := by
      simp only [List.append_assoc]
    rw [hs, readMore_of_step hskip hread]
    rcases hbehind with rfl | hbehind
    · exact ih
    · exact (left_suffix behind).trans hbehind

/-- Whatever comes behind a pointer, the first step is read, and what is left when reading stops is the end of it. -/
theorem exists_step_of_derives (h : Derives s steps) (tail : List Char) : ∃ step behind,
    readStep? (opening (s ++ tail)) = some (step, behind) ∧ closing (readMore behind).2 <:+ tail := by
  obtain @⟨front, text, rest, back, step, steps, hfront, htext, hrest, hback⟩ := h
  obtain ⟨step', behind, hread, hbehind⟩ := readStep?_append htext (goesOn_more hrest (goesOn_bracket hback)) tail
  obtain ⟨c, text, rfl, hc⟩ := exists_cons_of_stepText htext
  have hopening : opening (front ++ (c :: text ++ (rest ++ back ++ tail))) = c :: text ++ (rest ++ back ++ tail) :=
    opening_bracket hfront hc
  have hs : front ++ (c :: text) ++ rest ++ back ++ tail = front ++ (c :: text ++ (rest ++ back ++ tail)) := by
    simp only [List.append_assoc]
  rw [hs, hopening]
  refine ⟨step', behind, hread, ?_⟩
  rcases hbehind with rfl | hbehind
  · exact left_of_more hrest hback tail
  · exact (left_suffix behind).trans hbehind

/-! ### Why a text is refused -/

theorem longest_accepted_iff {behind front : List Char} (h : readStep? (opening s) = some (step, behind)) :
    Longest Accepted s front ↔ front ++ closing (readMore behind).2 = s := by
  obtain ⟨first, hderives, hs⟩ := exists_derives h
  refine longest_iff ⟨first, accepted_iff.2 ⟨_, hderives⟩, hs⟩ ?_
  rintro other rest hother rfl
  obtain ⟨steps, hother⟩ := accepted_iff.1 hother
  obtain ⟨step', behind', hread, hleft⟩ := exists_step_of_derives hother rest
  cases h.symm.trans hread
  exact hleft

/-- If no first step can be read, then no front part is a pointer. -/
theorem not_accepted_of_no_step (h : readStep? (opening s) = none) {front : List Char} (hfront : front <+: s) :
    ¬ Accepted front := by
  intro haccepted
  obtain ⟨steps, hderives⟩ := accepted_iff.1 haccepted
  obtain ⟨tail, rfl⟩ := hfront
  obtain ⟨step, behind, hread, -⟩ := exists_step_of_derives hderives tail
  cases h.symm.trans hread

theorem readSteps_of_no_step (h : readStep? (opening s) = none) : readSteps s =
    .error (.noName (Text.byteLength s - Text.byteLength (skipOptional ':' (opening s)))) := by
  simp only [readSteps, h]

theorem readSteps_of_step {behind : List Char} (h : readStep? (opening s) = some (step, behind)) :
    readSteps s = if closing (readMore behind).2 = [] then .ok (step :: (readMore behind).1)
      else .error (.leftover (Text.byteLength s - Text.byteLength (closing (readMore behind).2))) := by
  simp only [readSteps, h]
  split
  · next hleft => rw [if_pos hleft]
  · next hleft => rw [if_neg hleft]

/-- Where a front part ends is told from what is left. -/
theorem byteLength_front {front left : List Char} (h : front ++ left = s) :
    Text.byteLength s - Text.byteLength left = Text.byteLength front := by
  rw [← h, Text.byteLength_append, Nat.add_sub_cancel]

/-- The first name is missing if no front part of the text is a pointer. It is missing behind all that can stand in
front of it. -/
theorem readSteps_eq_noName_iff : readSteps s = .error (.noName o) ↔
    (∀ front, front <+: s → ¬ Accepted front) ∧ ∃ front, Longest Lead s front ∧ Text.byteLength front = o := by
  cases h : readStep? (opening s) with
  | none =>
    obtain ⟨lead, -, hs⟩ := exists_lead s
    rw [readSteps_of_no_step h, byteLength_front hs.symm, Except.error.injEq, ReadFault.noName.injEq]
    constructor
    · intro ho
      exact ⟨fun front hfront => not_accepted_of_no_step h hfront, lead, longest_lead_iff.2 hs.symm, ho⟩
    · rintro ⟨-, front, hfront, rfl⟩
      rw [List.append_cancel_right ((longest_lead_iff.1 hfront).trans hs)]
  | some found =>
    obtain ⟨step, behind⟩ := found
    obtain ⟨front, hderives, hs⟩ := exists_derives h
    have hfront : front <+: s := ⟨_, hs.symm⟩
    rw [readSteps_of_step h]
    constructor
    · intro hno
      split at hno <;> cases hno
    · rintro ⟨hnot, -⟩
      exact absurd (accepted_iff.2 ⟨_, hderives⟩) (hnot front hfront)

/-- Some text is left over if it is longer than its longest front part that is a pointer. It is left over behind
that one. -/
theorem readSteps_eq_leftover_iff : readSteps s = .error (.leftover o) ↔
    ∃ front, Longest Accepted s front ∧ front ≠ s ∧ Text.byteLength front = o := by
  cases h : readStep? (opening s) with
  | none =>
    rw [readSteps_of_no_step h]
    constructor
    · rintro ⟨⟩
    · rintro ⟨front, hfront, -⟩
      exact absurd hfront.holds (not_accepted_of_no_step h hfront.begins)
  | some found =>
    obtain ⟨step, behind⟩ := found
    obtain ⟨first, -, hs⟩ := exists_derives h
    have hlongest : ∀ front, Longest Accepted s front ↔ front = first := by
      intro front
      rw [longest_accepted_iff h]
      constructor
      · intro hfront
        exact List.append_cancel_right (hfront.trans hs)
      · rintro rfl
        exact hs.symm
    simp only [hlongest, exists_eq_left]
    rw [readSteps_of_step h, byteLength_front hs.symm]
    by_cases hleft : closing (readMore behind).2 = []
    · rw [if_pos hleft]
      rw [hleft, List.append_nil] at hs
      constructor
      · rintro ⟨⟩
      · rintro ⟨hne, -⟩
        exact absurd hs.symm hne
    · have hne : first ≠ s := by
        intro heq
        rw [heq] at hs
        exact hleft (List.self_eq_append_right.1 hs)
      rw [if_neg hleft, Except.error.injEq, ReadFault.leftover.injEq, and_iff_right hne]

theorem readSteps_ne_indexed (s : List Char) : readSteps s ≠ .error .indexed := by
  cases h : readStep? (opening s) with
  | none =>
    rw [readSteps_of_no_step h]
    rintro ⟨⟩
  | some found =>
    rw [readSteps_of_step h]
    split <;> rintro ⟨⟩

end Reader

/-! ### Errors -/

theorem parse_eq_error_iff {text : String} {fault : ReadFault} :
    IndexedPointer.parse text = .error fault ↔ Reader.readSteps text.toList = .error fault := by
  unfold IndexedPointer.parse
  cases Reader.readSteps text.toList <;> simp [Except.map]

theorem utf8ByteSize_ofList (s : List Char) : (String.ofList s).utf8ByteSize = Text.byteLength s := by
  induction s with
  | nil => rfl
  | cons c s ih =>
    rw [String.ofList_cons, String.utf8ByteSize_append, String.utf8ByteSize_singleton, ih, Text.byteLength_cons]

/-- A front part of a text ends between two characters. -/
theorem isValid_of_front {text : String} {front : List Char} (h : front <+: text.toList) :
    String.Pos.Raw.IsValid text ⟨Text.byteLength front⟩ := by
  obtain ⟨rest, hrest⟩ := h
  refine String.Pos.Raw.isValid_iff_exists_append.2 ⟨String.ofList front, String.ofList rest, ?_, ?_⟩
  · rw [← String.ofList_append, hrest, String.ofList_toList]
  · rw [← utf8ByteSize_ofList]
    rfl

/-- Reading refuses a text at one place, and this is as far as one can get. If no front part of the text is a
pointer, a name is missing behind all that can stand in front of it; the note says so. Else there is something left
over behind the longest front part that is a pointer, and there is no note. In the error the place is given in
bytes, and it lies between two characters. -/
theorem parse_refuses (text : String) :
    (∀ o, IndexedPointer.parse text = .error (.noName o) ↔
      (∀ front, front <+: text.toList → ¬ Accepted front) ∧
        ∃ front, Longest Lead text.toList front ∧ Text.byteLength front = o) ∧
    (∀ o, IndexedPointer.parse text = .error (.leftover o) ↔
      ∃ front, Longest Accepted text.toList front ∧ front ≠ text.toList ∧ Text.byteLength front = o) ∧
    (∀ e, IndexedPointer.ofText text = .error e → ∃ fault o note, IndexedPointer.parse text = .error fault ∧
      (fault = .noName o ∧ note = "invalid term name" ∨ fault = .leftover o ∧ note = "") ∧
      String.Pos.Raw.IsValid text ⟨o⟩ ∧ e = .pointerSyntax text fault ∧
      e.message = "invalid pointer " ++ Text.quoted text ++ ": " ++ Text.pointAt text o note) ∧
    ∀ fault, IndexedPointer.parse text = .error fault → Pointer.parse text = .error fault := by
  refine ⟨fun o => parse_eq_error_iff.trans Reader.readSteps_eq_noName_iff,
    fun o => parse_eq_error_iff.trans Reader.readSteps_eq_leftover_iff, fun e he => ?_, fun fault hfault => ?_⟩
  · cases hparse : IndexedPointer.parse text with
    | ok p =>
      rw [IndexedPointer.ofText, hparse] at he
      cases he
    | error fault =>
      rw [IndexedPointer.ofText, hparse] at he
      obtain rfl := Except.error.inj he
      have hread := parse_eq_error_iff.1 hparse
      cases fault with
      | noName o =>
        obtain ⟨-, front, hfront, rfl⟩ := Reader.readSteps_eq_noName_iff.1 hread
        exact ⟨_, _, _, rfl, .inl ⟨rfl, rfl⟩, isValid_of_front hfront.begins, rfl, rfl⟩
      | leftover o =>
        obtain ⟨front, hfront, -, rfl⟩ := Reader.readSteps_eq_leftover_iff.1 hread
        exact ⟨_, _, _, rfl, .inr ⟨rfl, rfl⟩, isValid_of_front hfront.begins, rfl, rfl⟩
      | indexed => exact absurd hread (Reader.readSteps_ne_indexed _)
  · rw [Pointer.parse, hfault]

/-- The accent is no letter of a name, and behind it nothing is read. In the second text there is none before it. -/
theorem parse_refuses_accents :
    (∃ front, Longest Accepted "access/café".toList front ∧ Text.byteLength front = 10) ∧
    String.Pos.Raw.IsValid "access/café" ⟨10⟩ ∧
    (Error.pointerSyntax "access/café" (.leftover 10)).message =
      "invalid pointer " ++ Text.quoted "access/café" ++ ": " ++ Text.pointAt "access/café" 10 "" ∧
    Pointer.parse "access/café" = .error (.leftover 10) ∧
    (∀ front, front <+: " [ :é".toList → ¬ Accepted front) ∧
    ∃ front, Longest Lead " [ :é".toList front ∧ Text.byteLength front = 4 := by
  obtain ⟨-, hleftover, herror, hplain⟩ := parse_refuses "access/café"
  obtain ⟨hnoName, -⟩ := parse_refuses " [ :é"
  have hparse : IndexedPointer.parse "access/café" = .error (.leftover 10) := by decide +kernel
  have hparse' : IndexedPointer.parse " [ :é" = .error (.noName 4) := by decide +kernel
  obtain ⟨front, hfront, -, hlength⟩ := (hleftover 10).1 hparse
  have hofText : IndexedPointer.ofText "access/café" = .error (.pointerSyntax "access/café" (.leftover 10)) := by
    rw [IndexedPointer.ofText, hparse]
    rfl
  obtain ⟨fault, o, note, hfault, hnote, hvalid, -, hmessage⟩ := herror _ hofText
  cases hparse.symm.trans hfault
  rcases hnote with ⟨⟨⟩, -⟩ | ⟨⟨⟩, rfl⟩
  obtain ⟨hnot, hlead⟩ := (hnoName 4).1 hparse'
  exact ⟨⟨front, hfront, hlength⟩, hvalid, hmessage, hplain _ hparse, hnot, hlead⟩

end TermAtlas.Pointer
