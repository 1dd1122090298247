import CachedRun.Digest

/-!
# Fields of a key

A key is the fingerprint of a list of fields. A field has a tag and a value, each preceded by its
length in eight bytes, most significant first, so a byte sequence is cut into fields in one way
only.

What is folded into a field has a shape: a text, a truth value (one byte), a number (eight bytes), a
text that may be missing (a zero byte, or a one byte and the text), or raw bytes. A list of texts is
a number field with its length, and a field for each item.
-/

set_option autoImplicit false

namespace CachedRun.Key

/-- A part of what a key is made from. -/
structure Field where
  tag : String
  value : Bytes
  deriving Repr, DecidableEq

namespace Field

def text (tag value : String) : Field := ⟨tag, Text.bytes value⟩

def flag (tag : String) (value : Bool) : Field := ⟨tag, [if value then 1 else 0]⟩

def count (tag : String) (n : Nat) : Field := ⟨tag, Digest.bigEndian64 n⟩

def optional (tag : String) : Option String → Field
  | some value => ⟨tag, 1 :: Text.bytes value⟩
  | none => ⟨tag, [0]⟩

/-- The number of texts, then the texts. -/
def list (tag : String) (texts : List String) : List Field :=
  count tag texts.length :: texts.map (text tag)

/-- A byte sequence with its length in front. -/
def sized (b : Bytes) : Bytes := Digest.bigEndian64 b.length ++ b

/-- The bytes of a field. -/
def bytes (f : Field) : Bytes := sized (Text.bytes f.tag) ++ sized f.value

end Field

/-- The byte sequence of a list of fields. -/
def stream (fields : List Field) : Bytes := fields.flatMap Field.bytes

/-- The fingerprint of a list of fields, as sixty-four hexadecimal digits. -/
def fingerprint (fields : List Field) : String :=
  String.ofList (Digest.hex (Digest.sha256 (stream fields)))

end CachedRun.Key
