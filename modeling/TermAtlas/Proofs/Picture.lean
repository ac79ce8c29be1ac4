import TermAtlas.Proofs.Detached
import TermAtlas.Proofs.Drawing

/-!
# What a drawing shows

What is drawn of a terminology can be read, and then it says what there is: first how nodes look in general and the
title, then one node for each number of the walk, in its order, then the edges of each, in the same order. The texts
that are written, titles, names and paths, are arbitrary, and reading gives them back.

An edge to a proxy's target is left out if the proxy stands for nothing. In a reached terminology no proxy does, and
what it stands for is in reach of the roots if the proxy is. So is the parent of each node that is. So no edge is
left out, and none ends at a node that is not drawn.

## What is proved

* `nodeName_injective` — different nodes have different names.
* `readGraph?_render` — what is read of a drawing, of any terminology.
* `connects_edges`, `Connects.joins` — which edges a node has, and that what they join is in reach.
* `Reached.render_depicts` — what the drawing of a reached terminology says.
-/

namespace TermAtlas

namespace Dot

open Reader

/-! ### Lines -/

/-- The attributes that a node is drawn with. -/
def attributes (showPaths : Bool) : Node → List (String × String)
  | .term term => ("label", term.name.text) :: ("shape", "box") ::
      ((if term.traits.isRoot then [("penwidth", "2.0")] else []) ++
        if showPaths then [("xlabel", term.paths.absolute)] else [])
  | .proxy proxy => [("label", proxy.name.text), ("shape", "box"), ("style", "dashed")]

/-- The edge from the parent of a node, if it has one. -/
def solidEdges (parent : Option Nat) (id : Nat) : List Statement :=
  parent.toList.map fun above => .edge (nodeName above) (nodeName id) []

/-- The edge from a proxy to the term that it stands for. -/
def dashedEdge (id target : Nat) : Statement := .edge (nodeName id) (nodeName target) [("style", "dashed")]

/-- The edges of a node. -/
def edges (t : Terminology) (id : Nat) : Node → List Statement
  | .term term => solidEdges term.parent id
  | .proxy proxy => solidEdges proxy.parent id ++
      (t.resolveProxy id).toOption.toList.map fun target => dashedEdge id target.id

/-- What is said of the title. -/
def titleSettings (title : String) : List Statement := [.setting "labelloc" "t", .setting "label" title]

/-- What all nodes are drawn with. -/
def defaults : List (String × String) :=
  [("colorscheme", "ylgnbu6"), ("fontname", "monospace"), ("xlp", "b")]

/-- What is said before the nodes. -/
def heading (title : Option String) : List Statement :=
  .node "node" defaults :: (title.map titleSettings).getD []

variable {t : Terminology} {id target : Nat} {node : Node} {showPaths : Bool}

theorem toList_nodeName (id : Nat) : (nodeName id).toList = "term_".toList ++ Nat.toDigits 10 id := by
  simp [nodeName]

theorem isWord_nodeName (id : Nat) : IsWord (nodeName id) := by
  have hdigits : ∀ c ∈ Nat.toDigits 10 id, isWordChar c = true := by
    intro c hc
    have hdigit : c.isDigit = true := Nat.isDigit_of_mem_toDigits (by decide) (by decide) hc
    simp [isWordChar, Char.isAlphanum, hdigit]
  rw [IsWord, toList_nodeName, List.all_append, List.all_eq_true.2 hdigits]
  exact ⟨by simp, by decide⟩

/-- Nodes of different numbers have different names. -/
theorem nodeName_injective : Function.Injective nodeName := by
  intro id other h
  have hdigits : Nat.toDigits 10 id = Nat.toDigits 10 other := by
    have hlist := congrArg String.toList h
    rw [toList_nodeName, toList_nodeName] at hlist
    exact List.append_cancel_left hlist
  calc id = Nat.ofDigitChars 10 (Nat.toDigits 10 id) 0 := Nat.ofDigitChars_ten_toDigits.symm
    _ = other := by rw [hdigits, Nat.ofDigitChars_ten_toDigits]

theorem isWord_of_mem_attributes {entry : String × String} (h : entry ∈ attributes showPaths node) :
    IsWord entry.1 := by
  have hkeys : entry.1 ∈ ["label", "shape", "penwidth", "xlabel", "style"] := by
    cases node with
    | term term =>
      cases hroot : term.traits.isRoot <;> cases showPaths <;> simp [attributes, hroot] at h ⊢ <;> grind
    | proxy proxy =>
      simp [attributes] at h ⊢
      grind
  have hwords : ∀ key ∈ ["label", "shape", "penwidth", "xlabel", "style"], IsWord key := by decide
  exact hwords _ hkeys

theorem toList_nodeLine (showPaths : Bool) (id : Nat) (node : Node) : (nodeLine showPaths id node).toList =
    (nodeName id).toList ++ ' ' :: (String.join ((attributes showPaths node).map attributeText)).toList := by
  have hbox : (quoted "box").toList = ['"', 'b', 'o', 'x', '"'] := by decide
  have hwidth : (quoted "2.0").toList = ['"', '2', '.', '0', '"'] := by decide
  have hdashed : (quoted "dashed").toList = ['"', 'd', 'a', 's', 'h', 'e', 'd', '"'] := by decide
  cases node with
  | term term =>
    cases hroot : term.traits.isRoot <;> cases showPaths <;>
      simp [nodeLine, Node.name, appearance, attributes, attributeText, String.join_cons, hroot, hbox, hwidth]
  | proxy proxy =>
    simp [nodeLine, Node.name, appearance, attributes, attributeText, String.join_cons, hbox, hdashed]

theorem lexesLines_node (showPaths : Bool) (id : Nat) (node : Node) : LexesLines [nodeLine showPaths id node]
    (Statement.node (nodeName id) (attributes showPaths node)).tokens := by
  have hkeys : ∀ entry ∈ attributes showPaths node, IsWord entry.1 := fun _ h => isWord_of_mem_attributes h
  have hattributes := (lexes_attributes hkeys).append (lexes_blank (c := '\n') (by decide))
  have hline := (hattributes.blank (c := ' ') (by decide)).word (by decide) (isWord_nodeName id)
  rw [List.append_nil] at hline
  refine lexesLines_single ?_
  rw [toList_nodeLine, List.append_assoc]
  exact hline

theorem lexes_edge {s : List Char} {tokens : List Token} {c : Char} (h : Lexes (c :: s) tokens)
    (hc : isWordChar c = false) (source target : Nat) : Lexes ((edgeLine source target).toList ++ c :: s)
      (.word (nodeName source) :: .sign '-' :: .sign '>' :: .word (nodeName target) :: tokens) := by
  have htarget := (h.word hc (isWord_nodeName target)).blank (c := ' ') (by decide)
  have harrow := (htarget.sign (c := '>') (by decide)).sign (c := '-') (by decide)
  have hline := (harrow.blank (c := ' ') (by decide)).word (by decide) (isWord_nodeName source)
  simpa [edgeLine] using hline

theorem lexesLines_edge (source target : Nat) :
    LexesLines [edgeLine source target] (Statement.edge (nodeName source) (nodeName target) []).tokens :=
  lexesLines_single (lexes_edge (lexes_blank (by decide)) (by decide) source target)

theorem lexesLines_dashed (source target : Nat) :
    LexesLines [dashedLine source target] (dashedEdge source target).tokens := by
  have hend := (lexes_blank (c := '\n') (by decide)).sign (c := ']') (by decide)
  have hstyle := (hend.entry (show IsWord "style" by decide) "dashed").sign (c := '[') (by decide)
  have hline := lexes_edge (hstyle.blank (c := ' ') (by decide)) (by decide) source target
  have hdashed : (quoted "dashed").toList = ['"', 'd', 'a', 's', 'h', 'e', 'd', '"'] := by decide
  refine lexesLines_single ?_
  simpa [dashedLine, dashedEdge, hdashed, Statement.tokens, attributeTokens] using hline

theorem lexesLines_solid (parent : Option Nat) (id : Nat) :
    LexesLines (parent.toList.map (edgeLine · id)) ((solidEdges parent id).flatMap Statement.tokens) := by
  cases parent with
  | none => exact lexesLines_nil
  | some above => simpa [solidEdges] using lexesLines_edge above id

theorem lexesLines_edges (t : Terminology) (id : Nat) (node : Node) :
    LexesLines (edgeLines t id node) ((edges t id node).flatMap Statement.tokens) := by
  cases node with
  | term term =>
    have hlines : edgeLines t id (.term term) = term.parent.toList.map (edgeLine · id) := by
      cases hparent : term.parent <;> simp [edgeLines, Node.parent, hparent]
    rw [hlines]
    exact lexesLines_solid term.parent id
  | proxy proxy =>
    have hlines : edgeLines t id (.proxy proxy) = proxy.parent.toList.map (edgeLine · id) ++
        (t.resolveProxy id).toOption.toList.map fun target => dashedLine id target.id := by
      cases hparent : proxy.parent <;> cases hresolve : t.resolveProxy id <;>
        simp [edgeLines, Node.parent, hparent, hresolve, Except.toOption]
    have hdashed : LexesLines ((t.resolveProxy id).toOption.toList.map fun target => dashedLine id target.id)
        (((t.resolveProxy id).toOption.toList.map fun target => dashedEdge id target.id).flatMap Statement.tokens) := by
      cases (t.resolveProxy id).toOption with
      | none => exact lexesLines_nil
      | some target => simpa using lexesLines_dashed id target.id
    rw [hlines, edges, List.flatMap_append]
    exact (lexesLines_solid proxy.parent id).append hdashed

theorem lexesLines_title (title : String) :
    LexesLines (titleLines title) ((titleSettings title).flatMap Statement.tokens) := by
  have hplace : LexesLines ["labelloc=\"t\";"] (Statement.setting "labelloc" "t").tokens := by
    have hend := (lexes_blank (c := '\n') (by decide)).sign (c := ';') (by decide)
    exact lexesLines_single (hend.entry (show IsWord "labelloc" by decide) "t")
  have htitle : LexesLines ["label=" ++ quoted title ++ ";"] (Statement.setting "label" title).tokens := by
    have hend := (lexes_blank (c := '\n') (by decide)).sign (c := ';') (by decide)
    have hline := hend.entry (show IsWord "label" by decide) title
    refine lexesLines_single ?_
    simpa [Statement.tokens] using hline
  exact hplace.append htitle

/-- The tokens of the line that tells how nodes look. -/
def defaultTokens : List Token :=
  [.word "node", .sign '[', .word "colorscheme", .sign '=', .text "ylgnbu6", .sign ',', .word "fontname", .sign '=',
    .text "monospace", .sign ',', .word "xlp", .sign '=', .text "b", .sign ']']

theorem lexesLines_opening : LexesLines
    ["digraph \x7b", "node [colorscheme=\"ylgnbu6\",fontname=\"monospace\",xlp=\"b\"]"]
    (.word "digraph" :: .sign '\x7b' :: defaultTokens) := by
  have hopening : LexesLines ["digraph \x7b"] [.word "digraph", .sign '\x7b'] := by
    have hbrace := (lexes_blank (c := '\n') (by decide)).sign (c := '\x7b') (by decide)
    exact lexesLines_single ((hbrace.blank (c := ' ') (by decide)).word (by decide) (show IsWord "digraph" by decide))
  have hdefaults : LexesLines ["node [colorscheme=\"ylgnbu6\",fontname=\"monospace\",xlp=\"b\"]"] defaultTokens := by
    have hend := (lexes_blank (c := '\n') (by decide)).sign (c := ']') (by decide)
    have hplace := (hend.entry (show IsWord "xlp" by decide) "b").sign (c := ',') (by decide)
    have hfont := (hplace.entry (show IsWord "fontname" by decide) "monospace").sign (c := ',') (by decide)
    have hcolors := (hfont.entry (show IsWord "colorscheme" by decide) "ylgnbu6").sign (c := '[') (by decide)
    exact lexesLines_single ((hcolors.blank (c := ' ') (by decide)).word (by decide) (show IsWord "node" by decide))
  exact hopening.append hdefaults

/-- What is said behind the line that tells how nodes look. -/
def said (t : Terminology) (style : Style) : List Statement :=
  (style.title.map titleSettings).getD [] ++
    (drawn t).map (fun entry => .node (nodeName entry.1) (attributes style.showPaths entry.2)) ++
    (drawn t).flatMap fun entry => edges t entry.1 entry.2

theorem lexesLines_lines (t : Terminology) (style : Style) : LexesLines (lines t style)
    (.word "digraph" :: .sign '\x7b' :: defaultTokens ++ (said t style).flatMap Statement.tokens ++
      [.sign '\x7d']) := by
  have htitle : LexesLines ((style.title.map titleLines).getD [])
      (((style.title.map titleSettings).getD []).flatMap Statement.tokens) := by
    cases style.title with
    | none => exact lexesLines_nil
    | some title => exact lexesLines_title title
  have hnodes : LexesLines ((drawn t).flatMap fun entry => [nodeLine style.showPaths entry.1 entry.2])
      (((drawn t).flatMap fun entry => [Statement.node (nodeName entry.1)
        (attributes style.showPaths entry.2)]).flatMap Statement.tokens) :=
    lexesLines_flatMap fun entry _ => by simpa using lexesLines_node style.showPaths entry.1 entry.2
  have hedges : LexesLines ((drawn t).flatMap fun entry => edgeLines t entry.1 entry.2)
      (((drawn t).flatMap fun entry => edges t entry.1 entry.2).flatMap Statement.tokens) :=
    lexesLines_flatMap fun entry _ => lexesLines_edges t entry.1 entry.2
  have hclosing : LexesLines ["\x7d"] [.sign '\x7d'] :=
    lexesLines_single ((lexes_blank (by decide)).sign (by decide))
  rw [← List.map_eq_flatMap, ← List.map_eq_flatMap] at hnodes
  have hlines := (((lexesLines_opening.append htitle).append hnodes).append hedges).append hclosing
  rw [said, List.flatMap_append, List.flatMap_append]
  simpa [lines] using hlines

theorem complete_of_mem_said {style : Style} {statement : Statement} (h : statement ∈ said t style) :
    statement.Complete := by
  have hedge : ∀ id node, statement ∈ edges t id node → ∃ source target entries,
      statement = .edge source target entries := by
    intro id node hedge
    cases node with
    | term term =>
      obtain ⟨above, -, rfl⟩ := List.mem_map.1 hedge
      exact ⟨_, _, _, rfl⟩
    | proxy proxy =>
      rcases List.mem_append.1 hedge with hsolid | hdashed
      · obtain ⟨above, -, rfl⟩ := List.mem_map.1 hsolid
        exact ⟨_, _, _, rfl⟩
      · obtain ⟨target, -, rfl⟩ := List.mem_map.1 hdashed
        exact ⟨_, _, _, rfl⟩
  rw [said, List.mem_append, List.mem_append] at h
  rcases h with (htitle | hnode) | hedges
  · cases htext : style.title with
    | none => simp [htext] at htitle
    | some title =>
      simp only [htext, titleSettings, Option.map_some, Option.getD_some, List.mem_cons, List.not_mem_nil,
        or_false] at htitle
      rcases htitle with rfl | rfl <;> trivial
  · obtain ⟨⟨id, node⟩, -, rfl⟩ := List.mem_map.1 hnode
    cases node <;> simp [Statement.Complete, attributes]
  · obtain ⟨⟨id, node⟩, -, hmem⟩ := List.mem_flatMap.1 hedges
    obtain ⟨source, target, entries, rfl⟩ := hedge id node hmem
    trivial

/-- What is read of a drawing, whatever is drawn. -/
theorem readGraph?_render (t : Terminology) (style : Style) :
    readGraph? (render t style).toList = some (.node "node" defaults :: said t style) := by
  have hlex := (lexesLines_lines t style).lex_eq
  have hbracket := tokens_ne_bracket (said t style)
  have hstatements : readStatements? ((said t style).flatMap Statement.tokens ++ [.sign '\x7d']) =
      some (said t style) := readStatements?_tokens fun _ => complete_of_mem_said
  rw [List.append_assoc] at hlex
  generalize (said t style).flatMap Statement.tokens ++ [.sign '\x7d'] = rest at hlex hbracket hstatements
  have hend : readAttributes? false (attributeTokens [] ++ rest) = some ([], rest) := readAttributes?_tokens hbracket
  rw [attributeTokens, List.flatMap_nil, List.nil_append] at hend
  have hdefaults : readAttributes? true (defaultTokens.drop 2 ++ rest) = some (defaults, rest) := by
    simp [defaultTokens, defaults, readAttributes?, hend]
  have hopening : readStatements? (.word "node" :: .sign '[' :: (defaultTokens.drop 2 ++ rest)) =
      some (.node "node" defaults :: said t style) := by
    rw [readStatements?]
    split
    · next hnone => cases hdefaults.symm.trans hnone
    · next hsome =>
      cases hdefaults.symm.trans hsome
      rw [hstatements]
      rfl
  have hgraph : lex (render t style).toList = some (.word "digraph" :: .sign '\x7b' ::
      .word "node" :: .sign '[' :: (defaultTokens.drop 2 ++ rest)) := hlex
  rw [readGraph?, hgraph]
  exact hopening

/-! ### What is said -/

/-- The statement declares the node of this number, as it is in the terminology. -/
inductive Declares (t : Terminology) (showPaths : Bool) (id : Nat) : Statement → Prop where
  | node {node : Node} (hnode : t.node? id = some node) :
    Declares t showPaths id (.node (nodeName id) (attributes showPaths node))

/-- The statements are the edges of the node of this number: one from its parent if it has one, and for a proxy one
to the term that it stands for. -/
inductive Connects (t : Terminology) (id : Nat) : List Statement → Prop where
  | term {term : Term} (hnode : t.node? id = some (.term term)) : Connects t id (solidEdges term.parent id)
  | proxy {proxy : Proxy} {target : Term} (hnode : t.node? id = some (.proxy proxy))
    (hresolve : t.resolveProxy id = .ok target) :
    Connects t id (solidEdges proxy.parent id ++ [dashedEdge id target.id])

/-- The statement is an edge between nodes with names among these. -/
def Joins (names : List String) : Statement → Prop
  | .edge source target _ => source ∈ names ∧ target ∈ names
  | _ => False

/-- The statements show the terminology: its nodes are declared, and edges are drawn to each of them. -/
structure Depicts (t : Terminology) (showPaths : Bool) (declarations : List Statement)
    (groups : List (List Statement)) : Prop where
  /-- Each node of the walk is declared, in this order, and nothing else. -/
  declares : List.Forall₂ (Declares t showPaths) t.walk declarations
  /-- The edges of each node of the walk are drawn, in this order, and no others. -/
  connects : List.Forall₂ (Connects t) t.walk groups
  /-- Nothing is declared twice. -/
  nodup : (t.walk.map nodeName).Nodup
  /-- Edges join what is declared. -/
  joins : ∀ edge ∈ groups.flatten, Joins (t.walk.map nodeName) edge
  /-- What is detached is not walked. -/
  mem_iff : ∀ id, id ∈ t.walk ↔ t.Linked id

/-- What is said of each node of the walk is said in the order of the walk. -/
theorem forall₂_drawn {α : Type} {R : Nat → α → Prop} {f : Nat × Node → α}
    (h : ∀ id ∈ t.walk, ∃ node, t.node? id = some node ∧ R id (f (id, node))) :
    List.Forall₂ R t.walk ((drawn t).map f) := by
  unfold drawn
  generalize t.walk = ids at h ⊢
  induction ids with
  | nil => exact .nil
  | cons id ids ih =>
    obtain ⟨⟨node, hnode, hR⟩, hrest⟩ := List.forall_mem_cons.1 h
    simp only [List.filterMap_cons, hnode, Option.map_some, List.map_cons]
    exact .cons hR (ih hrest)

theorem mem_drawn_iff {entry : Nat × Node} :
    entry ∈ drawn t ↔ entry.1 ∈ t.walk ∧ t.node? entry.1 = some entry.2 := by
  obtain ⟨id, node⟩ := entry
  simp only [drawn, List.mem_filterMap, Option.map_eq_some_iff, Prod.mk.injEq]
  constructor
  · rintro ⟨_, hid, _, hnode, rfl, rfl⟩
    exact ⟨hid, hnode⟩
  · rintro ⟨hid, hnode⟩
    exact ⟨id, hid, node, hnode, rfl, rfl⟩

/-- No edge to the target of a proxy is left out. -/
theorem connects_edges (h : t.Coherent) (hnode : t.node? id = some node) : Connects t id (edges t id node) := by
  cases node with
  | term term => exact .term hnode
  | proxy proxy =>
    obtain ⟨target, hresolve⟩ := h.exists_resolveProxy hnode
    have hedges : edges t id (.proxy proxy) = solidEdges proxy.parent id ++ [dashedEdge id target.id] := by
      simp [edges, hresolve, Except.toOption]
    rw [hedges]
    exact .proxy hnode hresolve

theorem joins_solidEdges {parent : Option Nat} (hid : t.Linked id) (hparent : t.InReach parent)
    {names : List String} (hnames : ∀ id, t.Linked id → nodeName id ∈ names) :
    ∀ edge ∈ solidEdges parent id, Joins names edge := by
  intro edge hedge
  obtain ⟨above, habove, rfl⟩ := List.mem_map.1 hedge
  obtain rfl := Option.mem_toList.1 habove
  exact ⟨hnames above hparent, hnames id hid⟩

/-- Parents, and what proxies stand for, are in reach of the roots if the node is. -/
theorem Connects.joins {group : List Statement} (h : Connects t id group) (harranged : t.Arranged)
    (hid : t.Linked id) {names : List String} (hnames : ∀ id, t.Linked id → nodeName id ∈ names) :
    ∀ edge ∈ group, Joins names edge := by
  cases h with
  | term hnode => exact joins_solidEdges hid (hid.inReach harranged hnode) hnames
  | @proxy proxy target hnode hresolve =>
    have hsolid := joins_solidEdges hid (hid.inReach harranged hnode) hnames
    obtain ⟨number, hfollow, hterm⟩ := Terminology.resolveProxy_eq_ok_iff.1 hresolve
    obtain rfl := harranged.id_of_term? hterm
    have htarget := harranged.linked_of_follow hid hfollow
    intro edge hedge
    rcases List.mem_append.1 hedge with hedge | hedge
    · exact hsolid edge hedge
    · obtain rfl := List.mem_singleton.1 hedge
      exact ⟨hnames id hid, hnames target.id htarget⟩

theorem depicts_drawn (h : t.Coherent) (showPaths : Bool) : Depicts t showPaths
    ((drawn t).map fun entry => .node (nodeName entry.1) (attributes showPaths entry.2))
    ((drawn t).map fun entry => edges t entry.1 entry.2) := by
  have hwalk : ∀ id ∈ t.walk, ∃ node, t.node? id = some node := fun id hid =>
    (h.mem_walk_iff.1 hid).exists_node? h.toArranged
  have hnames : ∀ id, t.Linked id → nodeName id ∈ t.walk.map nodeName := fun id hid =>
    List.mem_map_of_mem (h.mem_walk_iff.2 hid)
  refine ⟨forall₂_drawn fun id hid => ?_, forall₂_drawn fun id hid => ?_, h.nodup_walk.map nodeName_injective,
    fun edge hedge => ?_, fun _ => h.mem_walk_iff⟩
  · obtain ⟨node, hnode⟩ := hwalk id hid
    exact ⟨node, hnode, .node hnode⟩
  · obtain ⟨node, hnode⟩ := hwalk id hid
    exact ⟨node, hnode, connects_edges h hnode⟩
  · obtain ⟨group, hgroup, hmem⟩ := List.mem_flatten.1 hedge
    obtain ⟨⟨id, node⟩, hentry, rfl⟩ := List.mem_map.1 hgroup
    obtain ⟨hid, hnode⟩ := mem_drawn_iff.1 hentry
    exact (connects_edges h hnode).joins h.toArranged (h.mem_walk_iff.1 hid) hnames edge hmem

end Dot

open Dot

/-- The drawing of a reached terminology shows it, whatever the title is: behind the heading each node of the walk is
declared once, and then its edges are drawn, each to what is declared as well. Texts are escaped in such a way that
reading finds where they end, and gives them back. -/
theorem Terminology.Reached.render_depicts {t : Terminology} (h : t.Reached) (style : Style) :
    (∃ declarations groups, Reader.readGraph? (render t style).toList =
        some (heading style.title ++ declarations ++ groups.flatten) ∧
      Depicts t style.showPaths declarations groups) ∧
    ∀ text, (quoted text).toList =
        '"' :: (replaced '"' ['\\', '"'] (replaced '\\' ['\\', '\\'] text.toList) ++ ['"']) ∧
      ∀ rest, Reader.readQuoted? ((quoted text).toList ++ rest) = some (text, rest) := by
  refine ⟨⟨_, _, ?_, depicts_drawn h.coherent style.showPaths⟩, fun text =>
    ⟨quoted_eq_replaced text, Reader.readQuoted?_quoted text⟩⟩
  rw [readGraph?_render, said, heading, ← List.flatMap_def, List.cons_append, List.cons_append]

namespace Terminology.Sample

/-- A title that looks like the end of a text, and goes on in the next line. -/
def style : Style := ⟨some "roles\"; \\\n\x7d", true⟩

/-- Twelve nodes of the grafted terminology are declared, and each has its edges; the title is read back. -/
theorem picture_of_grafted : grafted.Reached ∧ ∃ declarations groups,
    Reader.readGraph? (render grafted style).toList =
      some (.node "node" defaults :: .setting "labelloc" "t" :: .setting "label" "roles\"; \\\n\x7d" ::
        (declarations ++ groups.flatten)) ∧
    Depicts grafted true declarations groups ∧ declarations.length = 12 ∧ groups.length = 12 := by
  obtain ⟨⟨declarations, groups, hread, hdepicts⟩, -⟩ := Reached.render_depicts reached_grafted style
  have hwalk : grafted.walk.length = 12 := by decide +kernel
  refine ⟨reached_grafted, declarations, groups, ?_, hdepicts, ?_, ?_⟩
  · rw [hread, List.append_assoc]
    rfl
  · rw [← hdepicts.declares.length_eq, hwalk]
  · rw [← hdepicts.connects.length_eq, hwalk]

end Terminology.Sample

end TermAtlas
