/-!
# Setting keys

Settings are stored under keys. Eleven keys are *known*: building a term reads them. Every other key
is an *extension* and is carried along untouched. An extension may bear the text of a known key and
is still a key of its own; reading a text never gives such an extension.

## What is proved

* `ofText_text` — a known key is read back from its text.
* `text_ofText` — the text of a key that was read is the text it was read from.
-/

namespace TermAtlas.Setting

/-- What a setting is stored under. -/
inductive Key where
  /-- The local name of the element, or the name of the attribute, that a term matches. -/
  | path
  /-- The attributes that a matching element must have. -/
  | attributes
  /-- Whether the term must be present. -/
  | required
  /-- The type of the content. -/
  | dataType
  /-- How the content is to be indexed. -/
  | indexAs
  /-- The child element that holds the content. -/
  | contentPath
  /-- The namespace that the term lives in. -/
  | qualifier
  /-- The term that this one is a variant of. -/
  | variantOf
  /-- The term whose settings and children are imported. -/
  | reference
  /-- The term that this one forwards to. -/
  | proxy
  /-- Whether the term is the root element of documents. -/
  | root
  /-- Any other key. -/
  | extension (text : String)
  deriving DecidableEq, Repr

namespace Key

/-- The known keys. -/
def known : List Key :=
  [path, attributes, required, dataType, indexAs, contentPath, qualifier, variantOf, reference,
    proxy, root]

/-- The text of a key. -/
def text : Key → String
  | path => "path"
  | attributes => "attributes"
  | required => "required"
  | dataType => "data_type"
  | indexAs => "index_as"
  | contentPath => "default_content_path"
  | qualifier => "namespace_prefix"
  | variantOf => "variant_of"
  | reference => "ref"
  | proxy => "proxy"
  | root => "root"
  | extension text => text

/-- The known key of this text, or else the extension. -/
def ofText (text : String) : Key :=
  (known.find? (·.text = text)).getD (extension text)

/-- Whether building leaves the key alone. -/
def isExtension : Key → Bool
  | extension _ => true
  | _ => false

/-- Whether a text is that of a known key. -/
def isKnownText (text : String) : Bool := known.any (·.text = text)

/-- A known key is read back from its text. -/
theorem ofText_text : ∀ key ∈ known, ofText key.text = key := by decide

/-- The text of a key that was read is the text it was read from. -/
theorem text_ofText (text : String) : (ofText text).text = text := by
  unfold ofText
  cases h : known.find? (·.text = text) with
  | none => rfl
  | some key => simpa using List.find?_some h

end Key

end TermAtlas.Setting
