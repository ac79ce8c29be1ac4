import TermAtlas.Dot
import Mathlib.Data.List.Basic
import Mathlib.Data.List.TakeWhile

/-!
# Reading drawings

What is drawn is a text of the dot language, of which these statements are read:

    graph      = 'digraph' '{' statement* '}'
    statement  = ( setting | node | edge ) [ ';' ]
    setting    = word '=' text
    node       = word attributes
    edge       = word '->' word [ attributes ]
    attributes = ( '[' [ word '=' text [ ',' ] ]* ']' )+

A text stands between double quotes, where a backslash stands for the character behind it. It may hold anything,
brackets and line feeds too; so the graph is first cut into tokens, and where a text ends is decided there. Between
tokens there may be blanks.

Texts are escaped by doubling the backslashes, and then setting one before each double quote. The order matters:
the backslashes that are set before double quotes are not doubled any more.

## What is proved

* `quoted_eq_replaced` — escaping in two turns is escaping each character by itself.
* `readQuoted?_quoted` — a text between double quotes is read back, and its end is found, whatever it holds.
* `Lexes.append` and the lemmas behind it — how the parts of a graph are cut into tokens.
* `readStatements?_tokens` — how tokens are read as statements.
-/

namespace TermAtlas.Dot

/-! ### Texts between quotes -/

/-- The text with `replacement` in the place of each `c`. -/
def replaced (c : Char) (replacement text : List Char) : List Char :=
  text.flatMap fun d => if d = c then replacement else [d]

/-- Doubling backslashes, and then setting one before each double quote, is escaping each character by itself. -/
theorem quoted_eq_replaced (text : String) : (quoted text).toList =
    '"' :: (replaced '"' ['\\', '"'] (replaced '\\' ['\\', '\\'] text.toList) ++ ['"']) := by
  have hchar : ∀ c, replaced '"' ['\\', '"'] (if c = '\\' then ['\\', '\\'] else [c]) = escapeChar c := by
    intro c
    by_cases hslash : c = '\\'
    · subst hslash
      rfl
    · by_cases hquote : c = '"'
      · subst hquote
        rfl
      · simp [replaced, escapeChar, hslash, hquote]
  have hboth : replaced '"' ['\\', '"'] (replaced '\\' ['\\', '\\'] text.toList) = text.toList.flatMap escapeChar := by
    rw [replaced, replaced, List.flatMap_assoc]
    exact List.flatMap_congr fun c _ => hchar c
  rw [hboth, quoted, String.toList_ofList]
  rfl

namespace Reader

/-- The text up to the double quote that ends it, and what comes behind. -/
def readEscaped? : List Char → Option (List Char × List Char)
  | [] => none
  | '"' :: rest => some ([], rest)
  | ['\\'] => none
  | '\\' :: c :: rest => (readEscaped? rest).map fun read => (c :: read.1, read.2)
  | c :: rest => (readEscaped? rest).map fun read => (c :: read.1, read.2)

/-- A text between double quotes. -/
def readQuoted? : List Char → Option (String × List Char)
  | '"' :: s => (readEscaped? s).map fun read => (String.ofList read.1, read.2)
  | _ => none

theorem readEscaped?_flatMap (text rest : List Char) :
    readEscaped? (text.flatMap escapeChar ++ '"' :: rest) = some (text, rest) := by
  induction text with
  | nil => rfl
  | cons c text ih =>
    rw [List.flatMap_cons, List.append_assoc, escapeChar]
    split
    · next h => rcases h with rfl | rfl <;> simp [readEscaped?, ih]
    · next h =>
      rw [not_or] at h
      simp [readEscaped?, ih, h.1, h.2]

/-- A text between double quotes is read back, whatever it holds and whatever comes behind. -/
theorem readQuoted?_quoted (text : String) (rest : List Char) :
    readQuoted? ((quoted text).toList ++ rest) = some (text, rest) := by
  have hread := readEscaped?_flatMap text.toList rest
  simp [quoted, readQuoted?, hread]

theorem length_lt_of_readEscaped? {s text rest : List Char} (h : readEscaped? s = some (text, rest)) :
    rest.length < s.length := by
  fun_induction readEscaped? s generalizing text with
  | case1 => cases h
  | case2 rest =>
    cases h
    simp
  | case3 => cases h
  | case4 c s ih =>
    obtain ⟨⟨_, _⟩, hread, ⟨⟩⟩ := Option.map_eq_some_iff.1 h
    have hlt := ih hread
    simp only [List.length_cons] at hlt ⊢
    omega
  | case5 c s _ _ _ ih =>
    obtain ⟨⟨_, _⟩, hread, ⟨⟩⟩ := Option.map_eq_some_iff.1 h
    have hlt := ih hread
    simp only [List.length_cons] at hlt ⊢
    omega

theorem length_lt_of_readQuoted? {s rest : List Char} {text : String} (h : readQuoted? s = some (text, rest)) :
    rest.length < s.length := by
  unfold readQuoted? at h
  split at h
  · next s =>
    obtain ⟨⟨_, _⟩, hread, ⟨⟩⟩ := Option.map_eq_some_iff.1 h
    exact (length_lt_of_readEscaped? hread).trans (Nat.lt_succ_self s.length)
  · cases h

/-! ### Tokens -/

/-- The smallest parts of a graph. -/
inductive Token where
  /-- A run of letters, digits and underscores. -/
  | word (word : String)
  /-- A text between double quotes. -/
  | text (text : String)
  /-- Any other character that is no blank. -/
  | sign (c : Char)
  deriving DecidableEq

/-- The characters of words. -/
def isWordChar (c : Char) : Bool := c.isAlphanum || c = '_'

/-- The characters between tokens. -/
def isBlank (c : Char) : Bool := c = ' ' || c = '\n'

/-- The characters that are tokens of their own. -/
def isSign (c : Char) : Bool := !isBlank c && !isWordChar c && c ≠ '"'

/-- The text is one word. -/
def IsWord (word : String) : Prop := word.toList ≠ [] ∧ word.toList.all isWordChar = true

instance (word : String) : Decidable (IsWord word) := inferInstanceAs (Decidable (_ ∧ _))

/-- The tokens of a graph. -/
def lex (s : List Char) : Option (List Token) :=
  match s with
  | [] => some []
  | c :: s =>
    if isBlank c then lex s
    else if isWordChar c then
      (lex (s.dropWhile isWordChar)).map (.word (String.ofList (c :: s.takeWhile isWordChar)) :: ·)
    else if c = '"' then
      match _h : readQuoted? (c :: s) with
      | none => none
      | some (text, rest) => (lex rest).map (.text text :: ·)
    else (lex s).map (.sign c :: ·)
termination_by s.length
decreasing_by
  · simp
  · have hle := (List.dropWhile_sublist (p := isWordChar) (l := s)).length_le
    simp only [List.length_cons]
    omega
  · exact length_lt_of_readQuoted? _h
  · simp

/-- The text is cut into these tokens, whatever comes behind. -/
def Lexes (s : List Char) (tokens : List Token) : Prop :=
  ∀ rest, lex (s ++ rest) = (lex rest).map (tokens ++ ·)

section Lexes

variable {s rest : List Char} {tokens more : List Token} {c : Char}

theorem Lexes.append (hs : Lexes s tokens) (hrest : Lexes rest more) : Lexes (s ++ rest) (tokens ++ more) := by
  intro behind
  rw [List.append_assoc, hs, hrest, Option.map_map]
  simp [Function.comp_def]

theorem lexes_blank (h : isBlank c = true) : Lexes [c] [] := by
  intro rest
  rw [List.singleton_append, lex, if_pos h]
  simp

theorem lexes_sign (h : isSign c = true) : Lexes [c] [.sign c] := by
  intro rest
  simp only [isSign, Bool.and_eq_true, Bool.not_eq_true', decide_eq_true_eq] at h
  obtain ⟨⟨hblank, hword⟩, hquote⟩ := h
  rw [List.singleton_append, lex]
  simp [hblank, hword, hquote]

theorem lexes_quoted (text : String) : Lexes (quoted text).toList [.text text] := by
  intro rest
  have hread := readQuoted?_quoted text rest
  obtain ⟨body, hbody⟩ : ∃ body, (quoted text).toList = '"' :: body := ⟨_, String.toList_ofList⟩
  rw [hbody, List.cons_append] at hread ⊢
  rw [lex, if_neg (by decide), if_neg (by decide), if_pos rfl]
  split
  · next hnone => cases hread.symm.trans hnone
  · next hsome =>
    cases hread.symm.trans hsome
    rfl

theorem lexes_nil : Lexes [] [] := fun rest => by simp

theorem Lexes.blank (h : Lexes s tokens) (hc : isBlank c = true) : Lexes (c :: s) tokens :=
  (lexes_blank hc).append h

theorem Lexes.sign (h : Lexes s tokens) (hc : isSign c = true) : Lexes (c :: s) (.sign c :: tokens) :=
  (lexes_sign hc).append h

theorem Lexes.quoted (h : Lexes s tokens) (text : String) :
    Lexes ((Dot.quoted text).toList ++ s) (.text text :: tokens) :=
  (lexes_quoted text).append h

/-- A word ends where a character comes that is not one of its own. -/
theorem Lexes.word (h : Lexes (c :: s) tokens) (hc : isWordChar c = false) {word : String} (hword : IsWord word) :
    Lexes (word.toList ++ c :: s) (.word word :: tokens) := by
  intro rest
  obtain ⟨hne, hall⟩ := hword
  obtain ⟨first, others, hcons⟩ := List.exists_cons_of_ne_nil hne
  rw [hcons, List.all_cons, Bool.and_eq_true, List.all_eq_true] at hall
  obtain ⟨hfirst, hrest⟩ := hall
  have hblank : isBlank first = false := by
    cases hblank : isBlank first with
    | false => rfl
    | true =>
      simp only [isBlank, Bool.or_eq_true, decide_eq_true_eq] at hblank
      rcases hblank with rfl | rfl <;> revert hfirst <;> decide
  have hsplit : word.toList ++ c :: s ++ rest = first :: (others ++ c :: (s ++ rest)) := by simp [hcons]
  have htake : (others ++ c :: (s ++ rest)).takeWhile isWordChar = others := by
    rw [List.takeWhile_append_of_pos hrest]
    simp [hc]
  have hdrop : (others ++ c :: (s ++ rest)).dropWhile isWordChar = c :: s ++ rest := by
    rw [List.dropWhile_append_of_pos hrest]
    simp [hc]
  rw [hsplit, lex, if_neg (by simp [hblank]), if_pos hfirst, htake, hdrop, h, Option.map_map, ← hcons,
    String.ofList_toList]
  rfl

theorem Lexes.entry (h : Lexes s tokens) {key : String} (hkey : IsWord key) (value : String) :
    Lexes (key.toList ++ '=' :: ((Dot.quoted value).toList ++ s)) (.word key :: .sign '=' :: .text value :: tokens) :=
  ((h.quoted value).sign (by decide)).word (by decide) hkey

/-- If nothing comes behind, these are all the tokens. -/
theorem Lexes.lex_eq (h : Lexes s tokens) : lex s = some tokens := by
  have hlex := h []
  rw [List.append_nil, lex] at hlex
  simpa using hlex

end Lexes

/-! ### Statements -/

/-- What is said in a graph. -/
inductive Statement where
  /-- A setting of the graph. -/
  | setting (key value : String)
  /-- A node with its attributes; for the word `node`, those of all nodes. -/
  | node (name : String) (attributes : List (String × String))
  /-- An edge with its attributes. -/
  | edge (source target : String) (attributes : List (String × String))
  deriving DecidableEq

/-- Lists of attributes, each between brackets; the flag tells whether a bracket is open. -/
def readAttributes? : Bool → List Token → Option (List (String × String) × List Token)
  | false, .sign '[' :: rest => readAttributes? true rest
  | false, rest => some ([], rest)
  | true, .sign ']' :: rest => readAttributes? false rest
  | true, .sign ',' :: rest => readAttributes? true rest
  | true, .word key :: .sign '=' :: .text value :: rest =>
    (readAttributes? true rest).map fun read => ((key, value) :: read.1, read.2)
  | true, _ => none

theorem length_le_of_readAttributes? {inside : Bool} {tokens rest : List Token} {attributes : List (String × String)}
    (h : readAttributes? inside tokens = some (attributes, rest)) : rest.length ≤ tokens.length := by
  fun_induction readAttributes? inside tokens generalizing attributes with
  | case1 tokens ih => exact (ih h).trans (Nat.le_succ _)
  | case2 =>
    cases h
    exact le_rfl
  | case3 tokens ih => exact (ih h).trans (Nat.le_succ _)
  | case4 tokens ih => exact (ih h).trans (Nat.le_succ _)
  | case5 key value tokens ih =>
    obtain ⟨⟨_, _⟩, hread, ⟨⟩⟩ := Option.map_eq_some_iff.1 h
    have hle := ih hread
    simp only [List.length_cons] at hle ⊢
    omega
  | case6 => cases h

/-- Statements up to the bracket that closes the graph. -/
def readStatements? : List Token → Option (List Statement)
  | [.sign '\x7d'] => some []
  | .sign ';' :: rest => readStatements? rest
  | .word key :: .sign '=' :: .text value :: rest => (readStatements? rest).map (.setting key value :: ·)
  | .word name :: .sign '[' :: rest =>
    match _h : readAttributes? true rest with
    | none => none
    | some (attributes, rest) => (readStatements? rest).map (.node name attributes :: ·)
  | .word source :: .sign '-' :: .sign '>' :: .word target :: rest =>
    match _h : readAttributes? false rest with
    | none => none
    | some (attributes, rest) => (readStatements? rest).map (.edge source target attributes :: ·)
  | _ => none
termination_by tokens => tokens.length
decreasing_by
  · simp
  · simp
    omega
  · have hle := length_le_of_readAttributes? _h
    simp only [List.length_cons]
    omega
  · have hle := length_le_of_readAttributes? _h
    simp only [List.length_cons]
    omega

/-- The statements of a graph. -/
def readGraph? (s : List Char) : Option (List Statement) :=
  match lex s with
  | some (.word "digraph" :: .sign '\x7b' :: tokens) => readStatements? tokens
  | _ => none

/-- Attributes with brackets around each. -/
def attributeTokens (attributes : List (String × String)) : List Token :=
  attributes.flatMap fun entry => [.sign '[', .word entry.1, .sign '=', .text entry.2, .sign ']']

/-- The tokens of a statement. -/
def Statement.tokens : Statement → List Token
  | .setting key value => [.word key, .sign '=', .text value, .sign ';']
  | .node name attributes => .word name :: attributeTokens attributes
  | .edge source target attributes =>
    .word source :: .sign '-' :: .sign '>' :: .word target :: attributeTokens attributes

/-- Nodes have attributes; without them they are not told from edges. -/
def Statement.Complete : Statement → Prop
  | .node _ attributes => attributes ≠ []
  | _ => True

variable {attributes : List (String × String)} {statements : List Statement} {tokens : List Token}

theorem readAttributes?_tokens (h : ∀ rest, tokens ≠ .sign '[' :: rest) :
    readAttributes? false (attributeTokens attributes ++ tokens) = some (attributes, tokens) := by
  induction attributes with
  | nil =>
    rw [attributeTokens, List.flatMap_nil, List.nil_append]
    unfold readAttributes?
    split
    · next rest _ => exact absurd rfl (h rest)
    · rfl
    all_goals contradiction
  | cons entry attributes ih =>
    rw [attributeTokens] at ih ⊢
    simp [readAttributes?, ih]

/-- What comes behind a statement are no attributes. -/
theorem readStatements?_cons {statement : Statement} (hcomplete : statement.Complete)
    (h : ∀ rest, tokens ≠ .sign '[' :: rest) :
    readStatements? (statement.tokens ++ tokens) = (readStatements? tokens).map (statement :: ·) := by
  cases statement with
  | setting key value => simp [Statement.tokens, readStatements?]
  | node name attributes =>
    obtain ⟨⟨key, value⟩, more, rfl⟩ := List.exists_cons_of_ne_nil hcomplete
    have hopen : readAttributes? false (attributeTokens ((key, value) :: more) ++ tokens) =
        some ((key, value) :: more, tokens) := readAttributes?_tokens h
    have hread : readAttributes? true ([.word key, .sign '=', .text value, .sign ']'] ++
        (attributeTokens more ++ tokens)) = some ((key, value) :: more, tokens) := hopen
    have htokens : (Statement.node name ((key, value) :: more)).tokens ++ tokens = .word name :: .sign '[' ::
        ([.word key, .sign '=', .text value, .sign ']'] ++ (attributeTokens more ++ tokens)) := by
      simp [Statement.tokens, attributeTokens]
    rw [htokens, readStatements?]
    split
    · next hnone => cases hread.symm.trans hnone
    · next hsome =>
      cases hread.symm.trans hsome
      rfl
  | edge source target attributes =>
    have hread : readAttributes? false (attributeTokens attributes ++ tokens) = some (attributes, tokens) :=
      readAttributes?_tokens h
    rw [Statement.tokens, List.cons_append, List.cons_append, List.cons_append, List.cons_append, readStatements?]
    split
    · next hnone => cases hread.symm.trans hnone
    · next hsome =>
      cases hread.symm.trans hsome
      rfl

/-- No statement begins with a bracket. -/
theorem tokens_ne_bracket (statements : List Statement) (rest : List Token) :
    statements.flatMap Statement.tokens ++ [.sign '\x7d'] ≠ .sign '[' :: rest := by
  cases statements with
  | nil => simp
  | cons statement statements => cases statement <;> simp [Statement.tokens]

/-- Statements are read from their tokens, one after the other. -/
theorem readStatements?_tokens (h : ∀ statement ∈ statements, statement.Complete) :
    readStatements? (statements.flatMap Statement.tokens ++ [.sign '\x7d']) = some statements := by
  induction statements with
  | nil => rw [List.flatMap_nil, List.nil_append, readStatements?]
  | cons statement statements ih =>
    obtain ⟨hstatement, hrest⟩ := List.forall_mem_cons.1 h
    rw [List.flatMap_cons, List.append_assoc, readStatements?_cons hstatement (tokens_ne_bracket statements),
      ih hrest]
    rfl

/-! ### How statements are written -/

/-- An attribute between brackets. -/
def attributeText (entry : String × String) : String := "[" ++ entry.1 ++ "=" ++ quoted entry.2 ++ "]"

theorem lexes_attributes (h : ∀ entry ∈ attributes, IsWord entry.1) :
    Lexes (String.join (attributes.map attributeText)).toList (attributeTokens attributes) := by
  induction attributes with
  | nil => exact lexes_nil
  | cons entry attributes ih =>
    obtain ⟨hentry, hrest⟩ := List.forall_mem_cons.1 h
    have htext : (String.join ((entry :: attributes).map attributeText)).toList = '[' :: (entry.1.toList ++
        '=' :: ((quoted entry.2).toList ++ ']' :: (String.join (attributes.map attributeText)).toList)) := by
      simp [String.join_cons, attributeText]
    rw [htext]
    exact (((ih hrest).sign (by decide)).entry hentry entry.2).sign (by decide)

/-- Lines are cut into these tokens. -/
def LexesLines (lines : List String) (tokens : List Token) : Prop :=
  Lexes (String.join (lines.map (· ++ "\n"))).toList tokens

theorem LexesLines.append {lines others : List String} {more : List Token} (h : LexesLines lines tokens)
    (hothers : LexesLines others more) : LexesLines (lines ++ others) (tokens ++ more) := by
  have hjoin := Lexes.append h hothers
  unfold LexesLines
  rw [List.map_append, String.toList_join, List.flatMap_append]
  rwa [String.toList_join, String.toList_join] at hjoin

theorem lexesLines_nil : LexesLines [] [] := lexes_nil

/-- What ends with an end of line is a line. -/
theorem lexesLines_single {line : String} (h : Lexes (line.toList ++ ['\n']) tokens) : LexesLines [line] tokens := by
  unfold LexesLines
  simpa [String.join_cons] using h

theorem lexesLines_flatMap {α : Type} {items : List α} {lines : α → List String} {statements : α → List Statement}
    (h : ∀ item ∈ items, LexesLines (lines item) ((statements item).flatMap Statement.tokens)) :
    LexesLines (items.flatMap lines) ((items.flatMap statements).flatMap Statement.tokens) := by
  induction items with
  | nil => exact lexesLines_nil
  | cons item items ih =>
    obtain ⟨hitem, hrest⟩ := List.forall_mem_cons.1 h
    rw [List.flatMap_cons, List.flatMap_cons, List.flatMap_append]
    exact hitem.append (ih hrest)

end Reader

end TermAtlas.Dot
