import TermAtlas.Dot
import TermAtlas.Workspace.Command
import TermAtlas.Office.Folder
import TermAtlas.Office.Cabinet
import TermAtlas.Office.Reference
import TermAtlas.Office.Command
import TermAtlas.Terminology.Unwinding
import TermAtlas.Terminology.InPlace
import TermAtlas.Terminology.BuildInPlace
import TermAtlas.Proofs.Coherence
import TermAtlas.Proofs.Lineage
import TermAtlas.Proofs.Walk
import TermAtlas.Proofs.Building
import TermAtlas.Proofs.Descent
import TermAtlas.Proofs.Query
import TermAtlas.Proofs.Transparency
import TermAtlas.Proofs.Detached
import TermAtlas.Proofs.Apart
import TermAtlas.Proofs.Session
import TermAtlas.Proofs.Bare
import TermAtlas.Proofs.Construction
import TermAtlas.Proofs.Undo
import TermAtlas.Proofs.Unwinding
import TermAtlas.Proofs.InPlace
import TermAtlas.Proofs.Grammar
import TermAtlas.Proofs.Nesting
import TermAtlas.Proofs.Frame
import TermAtlas.Proofs.Plain
import TermAtlas.Proofs.Renumbering
import TermAtlas.Proofs.Redeclaring
import TermAtlas.Proofs.Rendering
import TermAtlas.Proofs.Mirroring
import TermAtlas.Proofs.Agreement
import TermAtlas.Proofs.Alone
import TermAtlas.Proofs.Shaping
import TermAtlas.Proofs.Ordering
import TermAtlas.Proofs.Family
import TermAtlas.Proofs.Repeating
import TermAtlas.Proofs.Enlarging
import TermAtlas.Proofs.Spelling
import TermAtlas.Proofs.Heredity
import TermAtlas.Proofs.Chains
import TermAtlas.Proofs.Importing
import TermAtlas.Proofs.Standing
import TermAtlas.Proofs.Unfolding
import TermAtlas.Proofs.Composing
import TermAtlas.Proofs.Beforehand
import TermAtlas.Proofs.Predicates
import TermAtlas.Proofs.Blame
import TermAtlas.Proofs.Effects
import TermAtlas.Proofs.Editing
import TermAtlas.Proofs.Filing
import TermAtlas.Proofs.Office
import TermAtlas.Proofs.Naming
import TermAtlas.Proofs.Stopping
import TermAtlas.Proofs.Drawing
import TermAtlas.Proofs.Picture
import TermAtlas.Proofs.Spanning
import TermAtlas.Proofs.Origin
import TermAtlas.Proofs.Misfits
import TermAtlas.Proofs.Extensions
import TermAtlas.Proofs.BuildInPlace
import TermAtlas.Proofs.Recording
