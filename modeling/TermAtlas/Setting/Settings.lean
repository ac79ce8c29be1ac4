import TermAtlas.Setting.Key
import TermAtlas.Setting.Value

/-!
# Settings

The settings of a term are an ordered map from keys to values. Laying one collection of settings
over another is how a term imports what it does not say itself: the upper value of a key wins, only
two mappings under the same key are laid over each other in their turn, and not any deeper.
-/

namespace TermAtlas

/-- The settings of a term, in order. -/
abbrev Settings := OrderedMap Setting.Key Setting.Value

namespace Settings

open Setting

/-- The value under a key, read as a pointer. -/
def pointer? (s : Settings) (key : Key) : Option Pointer := (s.get? key).bind Value.toPointer?

/-- The value under a key, read as text. -/
def text? (s : Settings) (key : Key) : Option String := (s.get? key).bind Value.toText?

/-- Whether a key holds the flag yes. -/
def isOn (s : Settings) (key : Key) : Bool := ((s.get? key).bind Value.asFlag?).getD false

/-- The entries under extension keys. -/
def extensions (s : Settings) : Settings := s.restrict Key.isExtension

/-- Whether two collections agree but for the order of keys and tags. -/
def same (s t : Settings) : Bool := s.sameBy Value.same t

/-- The value that wins under a key of both sides: `upper`, with the mapping `lower` below it if
both are mappings. -/
def overlayValue (upper lower : Value) : Value :=
  match upper.asMapping?, lower.asMapping? with
  | some m, some n => Value.ofMapping (m.overlay n)
  | _, _ => upper

/-- `upper` laid over `lower`: the keys of `lower` in their order, then those only `upper` has. -/
def onto (upper lower : Settings) : Settings := OrderedMap.combine overlayValue upper lower

end Settings

end TermAtlas
