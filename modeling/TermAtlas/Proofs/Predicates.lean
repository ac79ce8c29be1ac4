import TermAtlas.Proofs.Grammar
import TermAtlas.XPath.Paths

/-!
# Reading attribute constraints

The texts of attribute constraints derive from a small part of the grammar of path expressions:

    constraint = '[@' name '=' expression ']'
    expression = literal | 'concat(' blanks literal (argument)+ blanks ')'
    argument   = blanks ',' blanks literal
    literal    = '"' text without '"' '"' | "'" text without "'" "'"

`Expression` and `Constraint` are this grammar as relations between texts and what they stand for. That a text is
written as an expression of it does not yet mean that it can be read, for a value may itself hold quotes, commas
and brackets, and what comes behind may hold them too. So the texts are also read from left to right, and each
reader is shown to find exactly what the grammar allows at the front of a text. Where a literal ends is decided by
the first quote of the kind that it began with; a value that holds both kinds is cut at its double quotes, and so
no piece between double quotes holds one.

## What is proved

* `reads_literal`, `reads_argument`, `reads_arguments`, `reads_expression`, `reads_constraint` — each reader finds
  exactly the texts of its kind at the front of a text, whatever comes behind.
* `Reads.unique` — so there is at most one such text at the front, with one meaning.
* `expression_literal` — the literal of a text is an expression, and the text is its value.
* `constraint_predicate`, `constraints_predicates` — what is written for attributes are constraints.
* `predicates_denote` — what is written for attributes is read back, and nothing else is written for others.
-/

namespace TermAtlas.XPath

open Pointer.Grammar Pointer.Reader

namespace Grammar

/-- A literal, and the text that is its value. -/
inductive StringLiteral : List Char → List Char → Prop where
  /-- A text between two quotes of a kind that it does not hold. -/
  | intro {mark : Char} {value : List Char} : mark = '"' ∨ mark = '\'' → mark ∉ value →
      StringLiteral (mark :: (value ++ [mark])) value

/-- An argument of a call behind the first one. -/
inductive Argument : List Char → List Char → Prop where
  /-- A literal behind a comma. -/
  | intro {before after text value : List Char} : Blanks before → Blanks after → StringLiteral text value →
      Argument (before ++ ',' :: (after ++ text)) value

/-- The arguments of a call behind the first one, and the bracket that closes the call. -/
inductive Arguments : List Char → List (List Char) → Prop where
  /-- There are no more. -/
  | close {blanks : List Char} : Blanks blanks → Arguments (blanks ++ [')']) []
  /-- One argument, and those behind it. -/
  | cons {text rest value : List Char} {values : List (List Char)} : Argument text value →
      Arguments rest values → Arguments (text ++ rest) (value :: values)

/-- `Expression text value`: the text is an expression of this value. -/
inductive Expression : List Char → List Char → Prop where
  /-- One literal. -/
  | literal {text value : List Char} : StringLiteral text value → Expression text value
  /-- Two literals or more, one after the other. -/
  | concat {blanks text rest value : List Char} {values : List (List Char)} : Blanks blanks →
      StringLiteral text value → Arguments rest values → values ≠ [] →
      Expression ("concat(".toList ++ (blanks ++ (text ++ rest))) (value ++ values.flatten)

/-- The constraint that an attribute of a name has a value. -/
inductive Constraint : List Char → String × String → Prop where
  /-- The name goes on up to the sign. -/
  | intro {name text value : List Char} : '=' ∉ name → Expression text value →
      Constraint ("[@".toList ++ (name ++ '=' :: (text ++ [']']))) (String.ofList name, String.ofList value)

/-- Constraints, one after the other. -/
inductive Constraints : List Char → List (String × String) → Prop where
  /-- There are none. -/
  | nil : Constraints [] []
  /-- One constraint, and those behind it. -/
  | cons {text rest : List Char} {entry : String × String} {entries : List (String × String)} :
      Constraint text entry → Constraints rest entries → Constraints (text ++ rest) (entry :: entries)

end Grammar

open Grammar

variable {mark : Char} {s text rest value : List Char}

/-! ### Reading -/

section Reads

variable {α : Type} {read : List Char → Option (α × List Char)} {Kind : List Char → α → Prop}

/-- The reader finds what is of the kind at the front of a text, and gives what it stands for and what comes
behind. -/
def Reads (read : List Char → Option (α × List Char)) (Kind : List Char → α → Prop) : Prop :=
  ∀ s a rest, read s = some (a, rest) ↔ ∃ text, Kind text a ∧ s = text ++ rest

theorem Reads.append {a : α} (h : Reads read Kind) (htext : Kind text a) (rest : List Char) :
    read (text ++ rest) = some (a, rest) :=
  (h _ _ _).2 ⟨text, htext, rfl⟩

/-- Of what is read at the front of a text there is one way only. -/
theorem Reads.unique {a a' : α} {text' rest' : List Char} (h : Reads read Kind) (htext : Kind text a)
    (htext' : Kind text' a') (hsame : text' ++ rest' = text ++ rest) : a' = a ∧ rest' = rest := by
  have hread := h.append htext' rest'
  rw [hsame, h.append htext rest, Option.some.injEq, Prod.mk.injEq] at hread
  exact ⟨hread.1.symm, hread.2.symm⟩

/-- A reader that never finds the empty text uses up text. -/
theorem Reads.length_lt {a : α} (h : Reads read Kind) (hne : ∀ text a, Kind text a → text ≠ [])
    (hread : read s = some (a, rest)) : rest.length < s.length := by
  obtain ⟨text, htext, rfl⟩ := (h _ _ _).1 hread
  have hpos := List.length_pos_iff.2 (hne text a htext)
  rw [List.length_append]
  omega

end Reads

/-- The text up to a mark, and the text behind it. -/
def readUntil? (mark : Char) : List Char → Option (List Char × List Char)
  | [] => none
  | c :: s => if c = mark then some ([], s) else (readUntil? mark s).map fun read => (c :: read.1, read.2)

theorem readUntil?_eq_some_iff : readUntil? mark s = some (text, rest) ↔ mark ∉ text ∧ s = text ++ mark :: rest := by
  induction s generalizing text with
  | nil => simp [readUntil?]
  | cons c s ih =>
    rw [readUntil?]
    split
    · next hmark =>
      subst hmark
      cases text with
      | nil => simp
      | cons d text =>
        refine ⟨nofun, ?_⟩
        rintro ⟨hnot, hs⟩
        exact absurd (List.cons.inj hs).1 (List.ne_of_not_mem_cons hnot)
    · next hother =>
      rw [Option.map_eq_some_iff]
      constructor
      · rintro ⟨⟨text, rest⟩, hread, ⟨⟩⟩
        obtain ⟨hnot, rfl⟩ := ih.1 hread
        exact ⟨List.not_mem_cons_of_ne_of_not_mem (Ne.symm hother) hnot, rfl⟩
      · rintro ⟨hnot, hs⟩
        cases text with
        | nil => exact absurd (List.cons.inj hs).1 hother
        | cons d text =>
          obtain ⟨rfl, rfl⟩ := List.cons.inj hs
          exact ⟨(text, rest), ih.2 ⟨List.not_mem_of_not_mem_cons hnot, rfl⟩, rfl⟩

/-- A literal. -/
def readLiteral? : List Char → Option (List Char × List Char)
  | [] => none
  | mark :: s => if mark = '"' ∨ mark = '\'' then readUntil? mark s else none

theorem reads_literal : Reads readLiteral? StringLiteral := by
  intro s value rest
  constructor
  · intro h
    cases s with
    | nil => cases h
    | cons mark s =>
      rw [readLiteral?, Option.ite_none_right_eq_some, readUntil?_eq_some_iff] at h
      obtain ⟨hmark, hvalue, rfl⟩ := h
      exact ⟨_, .intro hmark hvalue, by simp⟩
  · rintro ⟨_, @⟨mark, _, hmark, hvalue⟩, rfl⟩
    have hsplit : mark :: (value ++ [mark]) ++ rest = mark :: (value ++ mark :: rest) := by simp
    rw [hsplit, readLiteral?, if_pos hmark, readUntil?_eq_some_iff.2 ⟨hvalue, rfl⟩]

/-- A comma and a literal. -/
def readArgument? (s : List Char) : Option (List Char × List Char) := do
  let s ← (skipBlanks s).dropPrefix? [',']
  readLiteral? (skipBlanks s)

/-- A literal does not begin with a blank. -/
theorem skipBlanks_literal (h : StringLiteral text value) {blanks : List Char} (hblanks : Blanks blanks) :
    skipBlanks (blanks ++ (text ++ rest)) = text ++ rest := by
  refine skipBlanks_append hblanks ?_
  obtain ⟨rfl | rfl, -⟩ := h
  · exact goesOn_cons (by decide)
  · exact goesOn_cons (by decide)

theorem dropPrefix?_eq_some_iff {front : List Char} : s.dropPrefix? front = some rest ↔ s = front ++ rest := by
  simp [List.dropPrefix?_eq_some_iff]

theorem reads_argument : Reads readArgument? Argument := by
  intro s value rest
  rw [readArgument?, Option.bind_eq_bind, Option.bind_eq_some_iff]
  constructor
  · rintro ⟨behind, hcomma, hread⟩
    obtain ⟨before, hbefore, hs⟩ := exists_blanks s
    obtain ⟨after, hafter, hs₁⟩ := exists_blanks behind
    obtain ⟨text, htext, hs₂⟩ := (reads_literal _ _ _).1 hread
    refine ⟨_, .intro hbefore hafter htext, ?_⟩
    rw [hs, dropPrefix?_eq_some_iff.1 hcomma, hs₁, hs₂]
    simp
  · rintro ⟨_, @⟨before, after, text, _, hbefore, hafter, htext⟩, rfl⟩
    have hskip : skipBlanks (before ++ ',' :: (after ++ text) ++ rest) = [','] ++ (after ++ (text ++ rest)) := by
      rw [List.append_assoc, List.cons_append, List.append_assoc]
      exact skipBlanks_append hbefore (goesOn_cons (by decide))
    refine ⟨_, dropPrefix?_eq_some_iff.2 hskip, ?_⟩
    rw [skipBlanks_literal htext hafter, reads_literal.append htext]

/-- All the arguments that follow, up to the bracket behind them. -/
def readArguments? (s : List Char) : Option (List (List Char) × List Char) :=
  match (skipBlanks s).dropPrefix? [')'] with
  | some rest => some ([], rest)
  | none =>
    match _h : readArgument? s with
    | none => none
    | some (value, rest) => (readArguments? rest).map fun read => (value :: read.1, read.2)
termination_by s.length
decreasing_by
  refine reads_argument.length_lt ?_ _h
  rintro _ _ ⟨-, -, -⟩
  simp

theorem reads_arguments : Reads readArguments? Arguments := by
  intro s values rest
  constructor
  · intro h
    fun_induction readArguments? s generalizing values rest with
    | case1 s behind hclose =>
      cases h
      obtain ⟨blanks, hblanks, hs⟩ := exists_blanks s
      rw [dropPrefix?_eq_some_iff.1 hclose, ← List.append_assoc] at hs
      exact ⟨_, .close hblanks, hs⟩
    | case2 s hclose hnone => cases h
    | case3 s hclose value behind hread ih =>
      obtain ⟨⟨values, rest⟩, hvalues, ⟨⟩⟩ := Option.map_eq_some_iff.1 h
      obtain ⟨text, htext, rfl⟩ := (reads_argument _ _ _).1 hread
      obtain ⟨more, hmore, rfl⟩ := ih _ _ hvalues
      exact ⟨_, .cons htext hmore, (List.append_assoc ..).symm⟩
  · rintro ⟨text, htext, rfl⟩
    induction htext with
    | @close blanks hblanks =>
      have hclose : (skipBlanks (blanks ++ [')'] ++ rest)).dropPrefix? [')'] = some rest := by
        rw [List.append_assoc, dropPrefix?_eq_some_iff]
        exact skipBlanks_append hblanks (goesOn_cons (by decide))
      rw [readArguments?, hclose]
    | @cons text more value values htext _ ih =>
      have hread := reads_argument.append htext (more ++ rest)
      rw [List.append_assoc, readArguments?]
      split
      · next behind hclose =>
        -- the call is not closed where a comma stands
        obtain ⟨hbefore, -, -⟩ := htext
        rw [dropPrefix?_eq_some_iff, List.append_assoc, List.cons_append] at hclose
        cases (skipBlanks_append hbefore (goesOn_cons (by decide))).symm.trans hclose
      · split
        · next hnone => cases hread.symm.trans hnone
        · next value' behind hvalue =>
          cases hread.symm.trans hvalue
          rw [ih]
          rfl

/-- An expression. -/
def readExpression? (s : List Char) : Option (List Char × List Char) :=
  match s.dropPrefix? "concat(".toList with
  | none => readLiteral? s
  | some call => do
    let (value, s) ← readLiteral? (skipBlanks call)
    let (values, s) ← readArguments? s
    if values = [] then none else return (value ++ values.flatten, s)

theorem reads_expression : Reads readExpression? Expression := by
  intro s value rest
  unfold readExpression?
  constructor
  · intro h
    split at h
    · obtain ⟨text, htext, rfl⟩ := (reads_literal _ _ _).1 h
      exact ⟨text, .literal htext, rfl⟩
    · next call hcall =>
      obtain rfl := dropPrefix?_eq_some_iff.1 hcall
      simp only [Option.bind_eq_bind, Option.bind_eq_some_iff, Prod.exists, Option.ite_none_left_eq_some,
        Option.pure_def, Option.some.injEq, Prod.mk.injEq] at h
      obtain ⟨first, behind, hfirst, values, _, hvalues, hne, rfl, rfl⟩ := h
      obtain ⟨blanks, hblanks, hs⟩ := exists_blanks call
      obtain ⟨text, htext, hs₁⟩ := (reads_literal _ _ _).1 hfirst
      obtain ⟨more, hmore, rfl⟩ := (reads_arguments _ _ _).1 hvalues
      refine ⟨_, .concat hblanks htext hmore hne, ?_⟩
      rw [hs, hs₁]
      simp only [List.append_assoc]
  · rintro ⟨text, htext, rfl⟩
    cases htext with
    | literal hliteral =>
      split
      · exact reads_literal.append hliteral rest
      · next call hcall =>
        -- a literal does not begin as a call does
        obtain ⟨rfl | rfl, -⟩ := hliteral
        · cases dropPrefix?_eq_some_iff.1 hcall
        · cases dropPrefix?_eq_some_iff.1 hcall
    | @concat blanks text more first values hblanks hfirst hvalues hne =>
      have hcall := dropPrefix?_eq_some_iff.2 (List.append_assoc "concat(".toList (blanks ++ (text ++ more)) rest)
      rw [hcall]
      dsimp only
      rw [List.append_assoc, List.append_assoc, skipBlanks_literal hfirst hblanks,
        reads_literal.append hfirst]
      simp only [Option.bind_eq_bind, Option.bind_some, reads_arguments.append hvalues, if_neg hne]
      rfl

/-- A constraint. -/
def readConstraint? (s : List Char) : Option ((String × String) × List Char) := do
  let s ← s.dropPrefix? "[@".toList
  let (name, s) ← readUntil? '=' s
  let (value, s) ← readExpression? s
  let s ← s.dropPrefix? [']']
  return ((String.ofList name, String.ofList value), s)

theorem reads_constraint : Reads readConstraint? Constraint := by
  intro s entry rest
  simp only [readConstraint?, Option.bind_eq_bind, Option.bind_eq_some_iff, Prod.exists, Option.pure_def,
    Option.some.injEq, Prod.mk.injEq, dropPrefix?_eq_some_iff, readUntil?_eq_some_iff]
  constructor
  · rintro ⟨s, rfl, name, behind, ⟨hname, rfl⟩, value, more, hvalue, rest, rfl, rfl, rfl⟩
    obtain ⟨text, htext, rfl⟩ := (reads_expression _ _ _).1 hvalue
    exact ⟨_, .intro hname htext, by simp⟩
  · rintro ⟨_, @⟨name, text, value, hname, htext⟩, rfl⟩
    exact ⟨_, List.append_assoc .., name, text ++ ']' :: rest, ⟨hname, by simp⟩, value, ']' :: rest,
      reads_expression.append htext _, rest, rfl, rfl, rfl⟩

/-- All constraints of a text that consists of nothing else. -/
def readConstraints? (s : List Char) : Option (List (String × String)) :=
  if s = [] then some []
  else
    match _h : readConstraint? s with
    | none => none
    | some (entry, rest) => (readConstraints? rest).map (entry :: ·)
termination_by s.length
decreasing_by
  refine reads_constraint.length_lt ?_ _h
  rintro _ _ ⟨-, -⟩
  simp

/-- A text is read as a list of constraints exactly if it consists of these. -/
theorem readConstraints?_eq_some_iff {entries : List (String × String)} :
    readConstraints? s = some entries ↔ Constraints s entries := by
  constructor
  · intro h
    fun_induction readConstraints? s generalizing entries with
    | case1 =>
      cases h
      exact .nil
    | case2 s hne hnone => cases h
    | case3 s hne entry rest hread ih =>
      obtain ⟨entries, hentries, rfl⟩ := Option.map_eq_some_iff.1 h
      obtain ⟨text, htext, rfl⟩ := (reads_constraint _ _ _).1 hread
      exact .cons htext (ih hentries)
  · intro h
    induction h with
    | nil => rw [readConstraints?, if_pos rfl]
    | @cons text rest entry entries htext _ ih =>
      have hread := reads_constraint.append htext rest
      have hne : text ++ rest ≠ [] := by
        obtain ⟨-, -⟩ := htext
        simp
      rw [readConstraints?, if_neg hne]
      split
      · next hnone => cases hread.symm.trans hnone
      · next entry' behind hentry =>
        cases hread.symm.trans hentry
        rw [ih]
        rfl

/-! ### Writing -/

theorem stringLiteral_enclosed (hmark : mark = '"' ∨ mark = '\'') (hvalue : mark ∉ value) :
    StringLiteral (enclosed mark value).toList value := by
  rw [enclosed, String.toList_ofList]
  exact .intro hmark hvalue

/-- The pieces behind the first one, with a double quote in front of each. -/
theorem arguments_pieces {pieces : List (List Char)} (h : ∀ piece ∈ pieces, '"' ∉ piece) :
    Arguments ((pieces.flatMap fun piece => ", '\"', ".toList ++ (enclosed '"' piece).toList) ++ [')'])
      (pieces.flatMap fun piece => [['"'], piece]) := by
  have hseparator : ", '\"', ".toList = ',' :: ' ' :: ((enclosed '\'' ['"']).toList ++ [',', ' ']) := rfl
  rw [hseparator]
  induction pieces with
  | nil => exact .close blanks_nil
  | cons piece pieces ih =>
    obtain ⟨hpiece, hpieces⟩ := List.forall_mem_cons.1 h
    have hquote : StringLiteral (enclosed '\'' ['"']).toList ['"'] := stringLiteral_enclosed (.inr rfl) (by decide)
    have hbehind := stringLiteral_enclosed (.inl rfl) hpiece
    have harguments := Arguments.cons (.intro blanks_nil blanks_space hquote)
      (.cons (.intro blanks_nil blanks_space hbehind) (ih hpieces))
    rw [List.flatMap_cons, List.flatMap_cons]
    simpa only [List.nil_append, List.cons_append, List.append_assoc] using harguments

/-- The values of the pieces and of the quotes between them are the text that was cut. -/
theorem flatten_pieces (first : List Char) (pieces : List (List Char)) :
    first ++ (pieces.flatMap fun piece => [['"'], piece]).flatten = ['"'].intercalate (first :: pieces) := by
  rw [Text.intercalate_cons, List.flatten_eq_flatMap, List.flatMap_assoc]
  simp

/-- A text that holds the separator has two pieces at least. -/
theorem exists_pieces {sep : Char} (h : sep ∈ text) :
    ∃ first second others, Text.pieces sep text = first :: second :: others := by
  have hcount := List.count_pos_iff.2 h
  have hlength := Text.length_pieces sep text
  generalize Text.pieces sep text = pieces at hlength ⊢
  match pieces, hlength with
  | [piece], hlength =>
    rw [List.length_singleton] at hlength
    omega
  | first :: second :: others, _ => exact ⟨first, second, others, rfl⟩

/-- The literal of a text is an expression, and the text is its value. -/
theorem expression_literal (text : String) : Expression (literal text).toList text.toList := by
  unfold literal
  dsimp only
  split
  · next hdouble => exact .literal (stringLiteral_enclosed (.inl rfl) hdouble)
  · next hdouble =>
    split
    · next hsingle => exact .literal (stringLiteral_enclosed (.inr rfl) hsingle)
    · obtain ⟨first, second, others, hcut⟩ := exists_pieces (not_not.1 hdouble)
      have hpieces : ∀ piece ∈ first :: second :: others, '"' ∉ piece :=
        fun _ hpiece => Text.not_mem_of_mem_pieces (hcut ▸ hpiece)
      obtain ⟨hfirst, hothers⟩ := List.forall_mem_cons.1 hpieces
      have hexpression := Expression.concat blanks_nil (stringLiteral_enclosed (.inl rfl) hfirst)
        (arguments_pieces hothers) (by simp)
      rw [flatten_pieces, ← hcut, Text.intercalate_pieces] at hexpression
      rw [hcut, String.toList_append, String.toList_append, String.toList_intercalate, List.map_map, List.map_cons,
        Text.intercalate_cons, List.flatMap_map, List.append_assoc, List.append_assoc]
      exact hexpression

/-- What is written for an attribute is the constraint that it has this value. -/
theorem constraint_predicate {entry : String × String} (h : '=' ∉ entry.1.toList) :
    Constraint (predicate entry).toList entry := by
  obtain ⟨name, value⟩ := entry
  have hconstraint := Constraint.intro h (expression_literal value)
  rw [String.ofList_toList, String.ofList_toList] at hconstraint
  simpa [predicate] using hconstraint

/-- What is written for attributes are their constraints, in order. -/
theorem constraints_predicates {attributes : List (String × String)}
    (h : ∀ entry ∈ attributes, '=' ∉ entry.1.toList) :
    Constraints (predicates attributes).toList attributes := by
  induction attributes with
  | nil => exact .nil
  | cons entry attributes ih =>
    obtain ⟨hentry, hattributes⟩ := List.forall_mem_cons.1 h
    rw [predicates, List.map_cons, String.join_cons, String.toList_append]
    exact .cons (constraint_predicate hentry) (ih hattributes)

/-- What is written for attributes means these attributes and nothing else. The literal of a value is an expression
of this value, and whatever text comes behind it, it ends where it ends; a constraint is read back, and what comes
behind it is left as it is; the constraints of a list are read back in order, can be read in no other way, and are
those of no other list. -/
theorem predicates_denote (attributes others : List (String × String))
    (hnames : ∀ entry ∈ attributes, '=' ∉ entry.1.toList) (hothers : ∀ entry ∈ others, '=' ∉ entry.1.toList) :
    (∀ value : String, Expression (literal value).toList value.toList ∧ ∀ rest,
      readExpression? ((literal value).toList ++ rest) = some (value.toList, rest) ∧
      ∀ text meaning behind, Expression text meaning → text ++ behind = (literal value).toList ++ rest →
        meaning = value.toList ∧ behind = rest) ∧
    (∀ entry ∈ attributes, ∀ rest, readConstraint? ((predicate entry).toList ++ rest) = some (entry, rest)) ∧
    readConstraints? (predicates attributes).toList = some attributes ∧
    (∀ entries, Constraints (predicates attributes).toList entries → entries = attributes) ∧
    (predicates attributes = predicates others → attributes = others) := by
  have hread := readConstraints?_eq_some_iff.2 (constraints_predicates hnames)
  have hread' := readConstraints?_eq_some_iff.2 (constraints_predicates hothers)
  refine ⟨fun value => ⟨expression_literal value, fun rest => ⟨?_, ?_⟩⟩, ?_, hread, ?_, ?_⟩
  · exact reads_expression.append (expression_literal value) rest
  · exact fun text meaning behind htext hsame => reads_expression.unique (expression_literal value) htext hsame
  · exact fun entry hentry rest => reads_constraint.append (constraint_predicate (hnames entry hentry)) rest
  · intro entries hentries
    exact Option.some.inj ((readConstraints?_eq_some_iff.2 hentries).symm.trans hread)
  · intro hsame
    rw [← hsame, hread] at hread'
    exact Option.some.inj hread'

namespace Sample

/-- What somebody called out, with quotes of both kinds, a comma and brackets, and who did. -/
def remarks : List (String × String) := [("note", "\"it's\", ')]"), ("type", "personal")]

/-- The constraints of a remark are read back, and they are others in another order. -/
theorem predicates_of_remarks : (∀ entry ∈ remarks, '=' ∉ entry.1.toList) ∧
    predicates remarks =
      "[@note=concat(\"\", '\"', \"it's\", '\"', \", ')]\")][@type=\"personal\"]" ∧
    readConstraints? (predicates remarks).toList = some remarks ∧
    predicates remarks ≠ predicates remarks.reverse := by
  have hnames : ∀ entry ∈ remarks, '=' ∉ entry.1.toList := by decide
  have hreverse : ∀ entry ∈ remarks.reverse, '=' ∉ entry.1.toList := by decide
  obtain ⟨-, -, hread, -, hsame⟩ := predicates_denote remarks remarks.reverse hnames hreverse
  exact ⟨hnames, by decide +kernel, hread, fun h => absurd (hsame h) (by decide)⟩

end Sample

end TermAtlas.XPath
