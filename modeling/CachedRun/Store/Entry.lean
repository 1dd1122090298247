import CachedRun.Value.Outline

/-!
# Cache entries

An entry is the result of one run: the process it belongs to, when it was made, and its outputs. It
has a weight, which is what a cache in memory counts, and a document, which is what a cache on disk
keeps.

An entry expires when its lifetime has passed. A lifetime that is too long to count in milliseconds
never passes. Of one that is not too long, but leads from the making of the entry beyond the end of
the calendar, it cannot be told whether it has passed: the check has no answer, and whoever makes it
breaks off.
-/

set_option autoImplicit false

namespace CachedRun

/-- The result of a run. -/
structure Entry where
  process : String
  createdAt : Instant
  outputs : Outputs
  deriving Repr, Inhabited

namespace Entry

/-- The sizes of the outputs with their names. -/
def weight (e : Entry) : Nat :=
  total (e.outputs.map fun (id, v) => id.utf8ByteSize + v.weight)

/-- The longest lifetime that can pass, in seconds. -/
def longestLifetime : Nat := 9223372036854775

/-- The end of a lifetime in seconds can be told, or never comes. -/
def tellsEnd (e : Entry) (lifetime : Nat) : Bool :=
  longestLifetime < lifetime || (e.createdAt.addSeconds? lifetime).isSome

/-- Whether a lifetime in seconds has passed. There is no answer if its end cannot be told. -/
def isExpired? (e : Entry) (lifetime : Nat) (now : Instant) : Option Bool :=
  if longestLifetime < lifetime then some false
  else (e.createdAt.addSeconds? lifetime).map fun last => last.before now

/-- A lifetime has passed, and the check says so. -/
def isExpired (e : Entry) (lifetime : Nat) (now : Instant) : Bool :=
  (e.isExpired? lifetime now).getD false

def toJson (e : Entry) : Json :=
  .object [("process", .string e.process), ("createdAt", .string (Time.toShortest e.createdAt)),
    ("outputs", .object (e.outputs.map fun (id, v) => (id, v.toJson)))]

/-- The document of an entry. -/
def document (e : Entry) : Bytes := Text.bytes e.toJson.compact

/-- Reads an entry from its parts; of several outputs of one name the last counts. -/
def ofParts? (process createdAt outputs : Json) : Option Entry := do
  let process ← process.text?
  let createdAt ← Time.readRelaxed (← createdAt.text?).toList
  let fields ← outputs.fields?
  let outputs ← fields.mapM fun (id, v) => (Value.ofJson? v).map fun v => (id, v)
  return ⟨process, createdAt, Dict.ofList outputs⟩

/-- Reads an entry from an object or from an array of its parts. -/
def ofJson? : Json → Option Entry
  | .object fields => do
    ofParts? (← (← Json.once? "process" fields)) (← (← Json.once? "createdAt" fields))
      (← (← Json.once? "outputs" fields))
  | .array [process, createdAt, outputs] => ofParts? process createdAt outputs
  | _ => none

/-- What is read of an entry: its parts, and of its outputs what is read of values. -/
def outline (document : Json.Unread) : Json.Unread :=
  let outputs := Json.Unread.mapFields fun _ v => Value.outline v
  match document with
  | .array [process, createdAt, v] => .array [process, createdAt, outputs v]
  | document =>
    (document.keeping ["process", "createdAt", "outputs"]).mapFields fun name content =>
      if name = "outputs" then outputs content else content

/-- Reads an entry from the content of a file. -/
def read? (b : Bytes) : Option Entry := (Json.readBytesAs? outline b).bind ofJson?

end Entry

end CachedRun
