/-!
# Pieces of a text

A text is handled as its list of characters. `pieces sep` cuts it at every occurrence of `sep` and
keeps the pieces between them, empty ones included, so that a text with `n` occurrences has `n + 1`
pieces. `lastPiece` and `byteLength` are the two measurements that the diagnostics need.

## What is proved

* `intercalate_pieces` — putting the separators back gives the text.
* `length_pieces` — there is one piece more than there are separators.
* `not_mem_of_mem_pieces` — no piece holds the separator.
-/

namespace TermAtlas.Text

/-- The runs of characters between the occurrences of `sep`, in order. -/
def pieces (sep : Char) : List Char → List (List Char)
  | [] => [[]]
  | c :: rest =>
    if c = sep then [] :: pieces sep rest
    else
      match pieces sep rest with
      | [] => [[c]]
      | piece :: others => (c :: piece) :: others

/-- The characters after the last occurrence of `sep`, or all of them when there is none. -/
def lastPiece (sep : Char) (text : List Char) : List Char :=
  (text.reverse.takeWhile (· ≠ sep)).reverse

/-- The number of bytes a text takes in UTF-8. -/
def byteLength : List Char → Nat
  | [] => 0
  | c :: rest => c.utf8Size + byteLength rest

@[simp]
theorem byteLength_nil : byteLength [] = 0 := rfl

@[simp]
theorem byteLength_cons (c : Char) (text : List Char) :
    byteLength (c :: text) = c.utf8Size + byteLength text := rfl

@[simp]
theorem byteLength_append (a b : List Char) : byteLength (a ++ b) = byteLength a + byteLength b := by
  induction a with
  | nil => simp
  | cons c rest ih => simp [ih, Nat.add_assoc]

/-- Behind the first item, a separator stands in front of each. -/
theorem intercalate_cons {α : Type} (sep first : List α) (rest : List (List α)) :
    sep.intercalate (first :: rest) = first ++ rest.flatMap (sep ++ ·) := by
  induction rest generalizing first with
  | nil => simp
  | cons second rest ih =>
    rw [List.intercalate_cons_cons, ih, List.flatMap_cons, List.append_assoc, List.append_assoc]

/-- A text always has a piece. -/
theorem pieces_ne_nil (sep : Char) (text : List Char) : pieces sep text ≠ [] := by
  cases text with
  | nil => simp [pieces]
  | cons c rest =>
    rw [pieces]
    split
    · simp
    · split <;> simp

/-- There is one piece more than there are separators. -/
theorem length_pieces (sep : Char) (text : List Char) :
    (pieces sep text).length = text.count sep + 1 := by
  induction text with
  | nil => rfl
  | cons c rest ih =>
    by_cases h : c = sep
    · simp [pieces, h, ih]
    · have hp := pieces_ne_nil sep rest
      rw [pieces, if_neg h]
      split
      · contradiction
      · next piece others hrest => simp [hrest] at ih; simp [h, ih]

/-- No piece holds the separator. -/
theorem not_mem_of_mem_pieces {sep : Char} {text piece : List Char}
    (h : piece ∈ pieces sep text) : sep ∉ piece := by
  induction text generalizing piece with
  | nil => simp_all [pieces]
  | cons c rest ih =>
    rw [pieces] at h
    split at h
    · rcases List.mem_cons.1 h with rfl | h
      · simp
      · exact ih h
    · next hc =>
      split at h
      · simp at h; subst h; simpa using fun e => hc e.symm
      · next p others hrest =>
        rcases List.mem_cons.1 h with rfl | h
        · have : sep ∉ p := ih (by simp [hrest])
          simpa [this] using fun e => hc e.symm
        · exact ih (by simp [hrest, h])

/-- Putting the separators back gives the text. -/
theorem intercalate_pieces (sep : Char) (text : List Char) :
    [sep].intercalate (pieces sep text) = text := by
  induction text with
  | nil => rfl
  | cons c rest ih =>
    rw [pieces]
    have hp := pieces_ne_nil sep rest
    split
    · next h =>
      subst h
      cases hr : pieces c rest with
      | nil => contradiction
      | cons p others =>
        rw [hr] at ih
        simpa [List.intercalate, List.intersperse] using ih
    · cases hr : pieces sep rest with
      | nil => contradiction
      | cons p others =>
        rw [hr] at ih
        cases others with
        | nil => simpa [List.intercalate] using ih
        | cons q others => simpa [List.intercalate, List.intersperse] using ih

end TermAtlas.Text
