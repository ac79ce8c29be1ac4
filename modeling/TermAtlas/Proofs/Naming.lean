import TermAtlas.Proofs.Office
import TermAtlas.Proofs.Session

/-!
# Keys, names and identities

A declaration gets its identity and its name together when it is prepared anew, and no edit and no import
changes either of them. So copies bear the same name wherever they have come to: in drafts, below other
declarations, in registries and in forks of these. The names are written down in the order in which they are
given, which is that of the identities. A session only ever adds to this list, and every declaration that it
keeps, with all below it, bears the name that the list has for its identity.

In an office there are keys as well, and a folder could have a child under any key. That all keys are names
comes of what can be done in an office: it holds the workspace where the same has been done, and what holds a
declaration is filed under names at every depth.

## What is proved

* `lasting_recorded` — edits and imports keep the names that were given.
* `Workspace.Keeps.wellNamed` — siblings have names of their own, and copies the same name.
* `Office.Holds.contains` — what is kept in an office is filed well, and what it says is kept in the workspace.
* `Office.wellNamed_run` — in every session keys are names, no siblings share a name, and copies do.
-/

namespace TermAtlas

namespace Declaration

/-- The declaration and all below it bear the names that their identities were given, and the names of
siblings are apart. -/
inductive Recorded (given : List Name) : Declaration → Prop where
  /-- Here the name is that of the identity, and below it is so as well. -/
  | intro {d : Declaration} : given[d.id.number]? = some d.name → (Roster.names d.children).Nodup →
      (∀ child ∈ d.children, Recorded given child) → Recorded given d

variable {d x : Declaration} {given later : List Name}

theorem Recorded.name (h : d.Recorded given) : given[d.id.number]? = some d.name := by
  cases h with
  | intro hname _ _ => exact hname

theorem Recorded.nodup (h : d.Recorded given) : (Roster.names d.children).Nodup := by
  cases h with
  | intro _ hnodup _ => exact hnodup

theorem Recorded.child (h : d.Recorded given) : ∀ child ∈ d.children, child.Recorded given := by
  cases h with
  | intro _ _ hchildren => exact hchildren

/-- Names that have been given are not taken back. -/
theorem Recorded.mono (h : d.Recorded given) (hlater : given <+: later) : d.Recorded later := by
  induction h with
  | @intro d hname hnodup _ ih =>
    obtain ⟨more, rfl⟩ := hlater
    have hlt : d.id.number < given.length := (List.getElem?_eq_some_iff.1 hname).1
    exact .intro (by rw [List.getElem?_append_left hlt, hname]) hnodup ih

theorem hereditary_recorded (given : List Name) : Hereditary (Recorded given) where
  nodup _ h := h.nodup
  child _ h := h.child
  change d d' h hid hname hnodup hchildren := .intro (by rw [hid, hname, h.name]) hnodup hchildren

end Declaration

namespace Workspace

/-- Edits and imports keep the names that were given, and a new declaration bears the name that it is given. -/
theorem lasting_recorded : Lasting Declaration.Recorded where
  hereditary := Declaration.hereditary_recorded
  mono _ _ _ hlater hd := hd.mono hlater
  new given name := .intro (by simp [Declaration.new]) List.nodup_nil (by rintro _ ⟨⟩)

/-- `w.Contains x`: the declaration is kept, as a draft, in a registry, or at any depth below one of these. -/
inductive Contains (w : Workspace) : Declaration → Prop where
  /-- It is a draft. -/
  | draft {name : String} {d : Declaration} : w.drafts.get? name = some d → Contains w d
  /-- It is a root of a registry. -/
  | root {name : String} {r : Registry} {d : Declaration} : w.registries.get? name = some r → d ∈ r.roots →
      Contains w d
  /-- It is a child of something that is kept. -/
  | child {x d : Declaration} : Contains w x → d ∈ x.children → Contains w d

/-- Siblings have names of their own, copies bear the same name, and what is prepared anew is no copy of
anything. -/
structure WellNamed (w : Workspace) : Prop where
  /-- The names of children are apart, at any depth. -/
  children : ∀ x, w.Contains x → (Roster.names x.children).Nodup
  /-- So are those of the roots of registries. -/
  roots : ∀ name r, w.registries.get? name = some r → (Roster.names r.roots).Nodup
  /-- Where the identity is the same, the name is. -/
  copies : ∀ x y, w.Contains x → w.Contains y → x.id = y.id → x.name = y.name
  /-- The next new identity is not in use. -/
  fresh : ∀ x, w.Contains x → x.id.number < w.supply

variable {w : Workspace} {x : Declaration} {given : List Name}

theorem Keeps.recorded (h : Keeps Declaration.Recorded given w) (hx : w.Contains x) : x.Recorded given := by
  induction hx with
  | draft hdraft => exact h.drafts _ _ hdraft
  | root hregistry hroot => exact h.registries _ _ hregistry _ hroot
  | child _ hchild ih => exact ih.child _ hchild

theorem Keeps.wellNamed (h : Keeps Declaration.Recorded given w) : w.WellNamed where
  children _ hx := (h.recorded hx).nodup
  roots _ r _ := r.distinct
  copies x y hx hy hid := by
    have hname := (h.recorded hx).name
    rw [hid, (h.recorded hy).name] at hname
    exact (Option.some.inj hname).symm
  fresh x hx := by
    obtain ⟨hlt, -⟩ := List.getElem?_eq_some_iff.1 (h.recorded hx).name
    rwa [h.supply]

end Workspace

/-! ### Keys -/

namespace Office

/-- `o.Contains f`: the folder is kept, as a draft, in a cabinet, or under any keys below one of these. -/
inductive Contains (o : Office) : Folder → Prop where
  /-- It is a draft. -/
  | draft {name : String} {f : Folder} : o.drafts.get? name = some f → Contains o f
  /-- It is a root in a cabinet. -/
  | root {name : String} {c : Cabinet} {key : Name} {f : Folder} : o.cabinets.get? name = some c →
      (key, f) ∈ c.roots.entries → Contains o f
  /-- It is a child of something that is kept. -/
  | child {above : Folder} {key : Name} {f : Folder} : Contains o above → (key, f) ∈ above.children.entries →
      Contains o f

/-- Keys are names, no siblings share a name, copies bear the same name, and what is prepared anew is no copy of
anything. -/
structure WellNamed (o : Office) : Prop where
  /-- Each child is under the key that is its name, at any depth. -/
  children : ∀ f, o.Contains f → ∀ key child, (key, child) ∈ f.children.entries → key = child.name
  /-- So is each root of a cabinet. -/
  roots : ∀ name c, o.cabinets.get? name = some c → ∀ key root, (key, root) ∈ c.roots.entries → key = root.name
  /-- The names of children are apart, at any depth. -/
  children_apart : ∀ f, o.Contains f → (f.children.items.map Folder.name).Nodup
  /-- So are those of the roots of cabinets. -/
  roots_apart : ∀ name c, o.cabinets.get? name = some c → (c.roots.items.map Folder.name).Nodup
  /-- Where the identity is the same, the name is. -/
  copies : ∀ f g, o.Contains f → o.Contains g → f.id = g.id → f.name = g.name
  /-- The next new identity is not in use. -/
  fresh : ∀ f, o.Contains f → f.id.number < o.supply

variable {o : Office} {w : Workspace} {f : Folder}

/-- What is kept in an office is filed well, and what it says is kept in the workspace that the office holds. -/
theorem Holds.contains (h : o.Holds w) (hf : o.Contains f) : f.Filed ∧ w.Contains f.contents := by
  induction hf with
  | draft hdraft =>
    obtain ⟨d, hd, hheld⟩ := exists_of_rel (h.drafts _) hdraft
    exact ⟨hheld.filed, hheld.contents ▸ .draft hd⟩
  | root hcabinet hroot =>
    obtain ⟨r, hr, hheld⟩ := exists_of_rel (h.cabinets _) hcabinet
    refine ⟨hheld.filed _ hroot, .root hr ?_⟩
    rw [← hheld.contents]
    exact List.mem_map_of_mem (List.mem_map_of_mem hroot)
  | child _ hchild ih =>
    obtain ⟨hfiled, hkept⟩ := ih
    exact ⟨hfiled.children _ hchild, .child hkept (Folder.contents_mem_of_mem_children hchild)⟩

theorem Holds.wellNamed (h : o.Holds w) (hw : w.WellNamed) : o.WellNamed where
  children f hf key child hchild := (h.contains hf).1.keyed (key, child) hchild
  roots name c hcabinet key root hroot := by
    obtain ⟨r, -, hheld⟩ := exists_of_rel (h.cabinets name) hcabinet
    exact hheld.keyed (key, root) hroot
  children_apart f hf := (h.contains hf).1.keyed.nodup_names_items
  roots_apart name c hcabinet := by
    obtain ⟨r, -, hheld⟩ := exists_of_rel (h.cabinets name) hcabinet
    exact hheld.keyed.nodup_names_items
  copies f g hf hg hid := by
    have hname := hw.copies _ _ (h.contains hf).2 (h.contains hg).2
    simp only [Folder.id_contents, Folder.name_contents] at hname
    exact hname hid
  fresh f hf := by
    have hlt := hw.fresh _ (h.contains hf).2
    rwa [Folder.id_contents, h.supply] at hlt

theorem holds_default : (default : Office).Holds default :=
  ⟨rfl, fun _ => .none, fun _ => .none, rfl⟩

/-- At every point of a session, each child at any depth and each root is under the key that is its name, no
siblings share a name, and what has the same identity has the same name. This is so of folders and cabinets, and they
hold the drafts and registries of the workspace where the same commands are carried out. Resolving changes neither
identity nor name. -/
theorem wellNamed_run (commands : List Command) :
    ((default : Office).run commands).WellNamed ∧
    ((default : Office).run commands).Holds ((default : Workspace).run commands) ∧
    ((default : Workspace).run commands).WellNamed ∧
    (∀ (f : Folder) (registry : Option Cabinet) (resolved : Folder),
      f.resolve registry = .ok resolved → resolved.id = f.id ∧ resolved.name = f.name) ∧
    ∀ (d : Declaration) (registry : Option Registry) (resolved : Declaration),
      (d.resolve registry).result = .ok resolved → resolved.id = d.id ∧ resolved.name = d.name := by
  obtain ⟨given, -, hkeeps⟩ := Workspace.keeps_default.run Workspace.lasting_recorded commands
  have hholds := holds_default.run commands
  exact ⟨hholds.wellNamed hkeeps.wellNamed, hholds, hkeeps.wellNamed,
    fun _ _ _ hresolve => Folder.id_and_name_of_resolve hresolve,
    fun _ _ _ hresolve => Declaration.id_and_name_of_resolve hresolve⟩

end Office

namespace Terminology.Sample

open Office

/-- Declares names, forks the registry, adds roles to the names of the fork, and puts a copy of the draft below
the part that it has. -/
def forking : List Command := [
  .keep "draft" (.mk (.new ⟨"name"⟩) [.adopt (.mk (.new ⟨"part"⟩) [])]),
  .declare "main" (.mk (.draft "draft") []),
  .fork "main" "fork",
  .edit "fork" (.segments (pointer ["name"])) [] [] (some (.mk (.new ⟨"role"⟩) [])),
  .adopt "draft" [⟨"part"⟩] (.mk (.draft "draft") [])]

/-- The draft and the names of the fork are copies that differ in their children, and have the same name, which is
the key of the names in the fork. -/
theorem wellNamed_forking : ∃ f c key root, ((default : Office).run forking).drafts.get? "draft" = some f ∧
    ((default : Office).run forking).cabinets.get? "fork" = some c ∧ (key, root) ∈ c.roots.entries ∧
    f.id = root.id ∧ f.children.size = 1 ∧ root.children.size = 2 ∧ key = root.name ∧ f.name = root.name := by
  have hdraft : ((default : Office).run forking).drafts.get? "draft" |>.any fun f =>
      f.id = ⟨0⟩ ∧ f.children.size = 1 := by decide +kernel
  have hfork : ((default : Office).run forking).cabinets.get? "fork" |>.any fun c =>
      c.roots.entries.head?.any fun entry => entry.2.id = ⟨0⟩ ∧ entry.2.children.size = 2 := by decide +kernel
  simp only [Option.any_eq_true, decide_eq_true_eq] at hdraft hfork
  obtain ⟨f, hf, hid, hsize⟩ := hdraft
  obtain ⟨c, hc, ⟨key, root⟩, hroot, hid', hsize'⟩ := hfork
  have hmem : (key, root) ∈ c.roots.entries := List.mem_of_head? hroot
  have hsame : f.id = root.id := hid.trans hid'.symm
  obtain ⟨hnamed, -⟩ := wellNamed_run forking
  have hname := hnamed.copies f root (.draft hf) (.root hc hmem) hsame
  exact ⟨f, c, key, root, hf, hc, hmem, hsame, hsize, hsize', hnamed.roots "fork" c hc key root hmem, hname⟩

end Terminology.Sample

end TermAtlas
