import TermAtlas.Pointer.Basic
import TermAtlas.Text.Caret

/-!
# Reading pointers

The text of a pointer is

    blanks [ '[' ] blanks  step (separator step)*  blanks [ ']' ] blanks

where a step is a name with an optional colon in front and an optional index in brackets behind, as
in `:person[ 0 ]`, and a separator is a slash or a comma between blanks, or blanks alone. Names
consist of ASCII letters and digits, `_` and `-`; an index is a decimal numeral below `2 ^ 64`.

Each reader takes the text that is left and gives what it read together with the text behind it. A
separator that no step follows is not read, nor is an index that is not complete. The text is
refused where reading stops for good: where the first name should start, or else where the end of
the text should be.
-/

namespace TermAtlas

/-- Why a text is no pointer. Offsets are in bytes. -/
inductive ReadFault where
  /-- No name starts where the first one should. -/
  | noName (offset : Nat)
  /-- The text goes on where it should end. -/
  | leftover (offset : Nat)
  /-- A step has an index where only names may stand. -/
  | indexed
  deriving DecidableEq, Repr

/-- What is wrong with `text`, shown at the place. -/
def ReadFault.message (text : String) : ReadFault → String
  | .noName offset => Text.pointAt text offset "invalid term name"
  | .leftover offset => Text.pointAt text offset ""
  | .indexed => "node indices are only allowed in indexed pointers"

namespace Pointer.Reader

/-- The blanks: space, tab, carriage return and line feed. -/
def isBlank (c : Char) : Bool := c = ' ' || c = '\t' || c = '\r' || c = '\n'

/-- The characters of names. -/
def isNameChar (c : Char) : Bool := c.isAlphanum || c = '_' || c = '-'

/-- The text behind any blanks. -/
def skipBlanks (s : List Char) : List Char := s.dropWhile isBlank

/-- The text behind one `c`, if it starts with one. -/
def skipOptional (c : Char) : List Char → List Char
  | [] => []
  | d :: s => if d = c then s else d :: s

/-- A name of at least one character, with an optional colon in front. -/
def readName? (s : List Char) : Option (Name × List Char) :=
  let s := skipOptional ':' s
  let name := s.takeWhile isNameChar
  if name = [] then none else some (⟨String.ofList name⟩, s.dropWhile isNameChar)

/-- A numeral below `2 ^ 64` in brackets, with blanks around it. -/
def readIndex? : List Char → Option (UInt64 × List Char)
  | '[' :: s =>
    let s := skipBlanks s
    let digits := s.takeWhile Char.isDigit
    let value := Nat.ofDigitChars 10 digits 0
    match skipBlanks (s.dropWhile Char.isDigit) with
    | ']' :: rest =>
      if digits ≠ [] ∧ value < UInt64.size then some (UInt64.ofNat value, rest) else none
    | _ => none
  | _ => none

/-- A name and the index behind it, if there is a complete one. -/
def readStep? (s : List Char) : Option (Step × List Char) :=
  match readName? s with
  | none => none
  | some (name, rest) =>
    match readIndex? rest with
    | none => some (⟨name, none⟩, rest)
    | some (index, rest) => some (⟨name, some index⟩, rest)

/-- A slash or a comma with blanks around it, or at least one blank. -/
def skipSeparator? (s : List Char) : Option (List Char) :=
  match skipBlanks s with
  | '/' :: rest => some (skipBlanks rest)
  | ',' :: rest => some (skipBlanks rest)
  | rest => if (s.head?.any isBlank) then some rest else none

/-! ### Readers use up text -/

theorem length_skipBlanks_le (s : List Char) : (skipBlanks s).length ≤ s.length :=
  (List.dropWhile_sublist _).length_le

theorem length_skipOptional_le (c : Char) (s : List Char) : (skipOptional c s).length ≤ s.length := by
  cases s with
  | nil => simp [skipOptional]
  | cons d s => rw [skipOptional]; split <;> simp

theorem length_lt_of_readName? {s rest : List Char} {name : Name}
    (h : readName? s = some (name, rest)) : rest.length < s.length := by
  simp only [readName?, Option.ite_none_left_eq_some, Option.some.injEq, Prod.mk.injEq] at h
  obtain ⟨hne, -, rfl⟩ := h
  have hle := length_skipOptional_le ':' s
  have hsum := congrArg List.length
    (List.takeWhile_append_dropWhile (p := isNameChar) (l := skipOptional ':' s))
  have hpos := List.length_pos_iff.2 hne
  simp only [List.length_append] at hsum
  omega

theorem length_lt_of_readIndex? {s rest : List Char} {index : UInt64}
    (h : readIndex? s = some (index, rest)) : rest.length < s.length := by
  unfold readIndex? at h
  split at h
  · next s =>
    dsimp only at h
    split at h
    · next rest' hrest =>
      simp only [Option.ite_none_right_eq_some, Option.some.injEq, Prod.mk.injEq] at h
      obtain ⟨-, -, rfl⟩ := h
      have h₁ := congrArg List.length hrest
      have h₂ := length_skipBlanks_le ((skipBlanks s).dropWhile Char.isDigit)
      have h₃ := (List.dropWhile_sublist (p := Char.isDigit) (l := skipBlanks s)).length_le
      have h₄ := length_skipBlanks_le s
      simp only [List.length_cons] at h₁ ⊢
      omega
    · simp at h
  · simp at h

theorem length_lt_of_readStep? {s rest : List Char} {step : Step}
    (h : readStep? s = some (step, rest)) : rest.length < s.length := by
  unfold readStep? at h
  split at h
  · simp at h
  · next name rest' hname =>
    have := length_lt_of_readName? hname
    split at h
    · simp only [Option.some.injEq, Prod.mk.injEq] at h
      obtain ⟨-, rfl⟩ := h
      exact this
    · next index rest'' hindex =>
      have := length_lt_of_readIndex? hindex
      simp only [Option.some.injEq, Prod.mk.injEq] at h
      obtain ⟨-, rfl⟩ := h
      omega

theorem length_le_of_skipSeparator? {s rest : List Char} (h : skipSeparator? s = some rest) :
    rest.length ≤ s.length := by
  have hle := length_skipBlanks_le s
  unfold skipSeparator? at h
  split at h
  · next t ht =>
    have h₁ := congrArg List.length ht
    have h₂ := length_skipBlanks_le t
    simp only [Option.some.injEq] at h
    simp only [List.length_cons] at h₁
    subst h
    omega
  · next t ht =>
    have h₁ := congrArg List.length ht
    have h₂ := length_skipBlanks_le t
    simp only [Option.some.injEq] at h
    simp only [List.length_cons] at h₁
    subst h
    omega
  · simp only [Option.ite_none_right_eq_some, Option.some.injEq] at h
    obtain ⟨-, rfl⟩ := h
    exact hle

/-! ### Whole pointers -/

/-- All the steps that follow, each behind a separator, and the text behind the last one. -/
def readMore (s : List Char) : List Step × List Char :=
  match _hs : skipSeparator? s with
  | none => ([], s)
  | some s' =>
    match _ht : readStep? s' with
    | none => ([], s)
    | some (step, rest) =>
      let (steps, rest) := readMore rest
      (step :: steps, rest)
termination_by s.length
decreasing_by
  have := length_le_of_skipSeparator? _hs
  have := length_lt_of_readStep? _ht
  omega

/-- The text from the first step on: behind blanks, an optional bracket and blanks. -/
def opening (s : List Char) : List Char := skipBlanks (skipOptional '[' (skipBlanks s))

/-- The text behind the last step with blanks, an optional bracket and blanks taken away. -/
def closing (s : List Char) : List Char := skipBlanks (skipOptional ']' (skipBlanks s))

/-- The steps of a pointer, or the place where reading stopped. -/
def readSteps (s : List Char) : Except ReadFault (List Step) :=
  let start := opening s
  match readStep? start with
  | none =>
    .error (.noName (Text.byteLength s - Text.byteLength (skipOptional ':' start)))
  | some (step, rest) =>
    let (steps, rest) := readMore rest
    match closing rest with
    | [] => .ok (step :: steps)
    | left => .error (.leftover (Text.byteLength s - Text.byteLength left))

end Pointer.Reader

/-- Reads a pointer with optional indices. -/
def IndexedPointer.parse (text : String) : Except ReadFault IndexedPointer :=
  (Pointer.Reader.readSteps text.toList).map (⟨·⟩)

/-- Reads a pointer without indices. -/
def Pointer.parse (text : String) : Except ReadFault Pointer :=
  match IndexedPointer.parse text with
  | .error fault => .error fault
  | .ok p => if p.steps.all (·.index.isNone) then .ok p.toPointer else .error .indexed

end TermAtlas
