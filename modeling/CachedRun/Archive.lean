import CachedRun.Fault
import CachedRun.Store.Component

/-!
# Archives

Files travel into a container and out of it as a tar archive: for each file a header of 512 bytes
and the content, filled up to whole blocks, and two empty blocks at the end. A name of more than a
hundred bytes does not fit into a header; it goes before its file as the content of a member of its
own, of the kind `L`.

`write` makes the archive of a list of files and `read` lists the members of one. Reading goes on
until the end or the first thing that is wrong, and gives back what came before, so a file at the
front is found whatever follows it.
-/

set_option autoImplicit false

namespace CachedRun.Archive

/-- What is wrong with an archive, or with a path that is to go into one. -/
inductive Flaw where
  /-- The path cannot stand in a header; with the reason and what has been written of it. -/
  | path (reason : String) (written : String)
  | brokenHeader
  | wrongChecksum
  | notANumber (text : String)
  | cutShort
  | missingMember
  | repeatedExtension
  deriving Repr, DecidableEq

def Flaw.message : Flaw → String
  | .path reason written => s!"{reason} when setting path for {written}"
  | .brokenHeader => "failed to read entire block"
  | .wrongChecksum => "archive header checksum mismatch"
  | .notANumber text => s!"numeric field was not a number: {text}"
  | .cutShort => "unexpected EOF during skip"
  | .missingMember =>
    "members found describing a future member but no future member found"
  | .repeatedExtension => "two long name entries describing the same member"

def blockSize : Nat := 512

/-- The number of bytes that fill a content up to whole blocks. -/
def padding (size : Nat) : Nat := (blockSize - size % blockSize) % blockSize

/-! ## Headers -/

/-- The bytes that a header has for a name. -/
def nameWidth : Nat := 100

/-- A field of a header, filled up with zero bytes. -/
def field (width : Nat) (content : Bytes) : Bytes :=
  content ++ List.replicate (width - content.length) 0

/-- An octal number that takes all bytes of a field but the last. -/
def octal (width n : Nat) : Bytes :=
  let digits := Nat.toDigits 8 n
  field width ((List.replicate (width - 1 - digits.length) '0' ++ digits).map fun c =>
    UInt8.ofNat c.toNat)

/-- What a header says. -/
structure Header where
  name : Bytes
  mode : Nat
  /-- The numbers of the owner and the group; both fields stay empty if there are none. -/
  owner : Option Nat
  size : Nat
  kind : UInt8

/-- The fields of a header with a text in place of the checksum. -/
def Header.withChecksum (h : Header) (checksum : Bytes) : Bytes :=
  let owner := match h.owner with
    | some n => octal 8 n
    | none => field 8 []
  field nameWidth h.name ++ octal 8 h.mode ++ owner ++ owner ++ octal 12 h.size ++ octal 12 0
    ++ checksum ++ [h.kind] ++ field 100 [] ++ Text.bytes "ustar  " ++ [0] ++ field 247 []

/-- The sum of all bytes. -/
def sum (b : Bytes) : Nat := b.foldl (fun total byte => total + byte.toNat) 0

/-- The header as a block. The checksum is made with blanks in its own place. -/
def Header.toBytes (h : Header) : Bytes :=
  h.withChecksum (octal 8 (sum (h.withChecksum (List.replicate 8 0x20))))

/-! ## Writing -/

/-- The path as it stands in a header, and what had been written when it was refused. The path must
be relative and must not lead upwards; in a path that is cut off, a last part of two dots may be the
beginning of a longer name. -/
def headerPath (cutOff : Bool) : Bytes → List Component → Except Flaw Bytes
  | written, [] => .ok written
  | written, part :: rest =>
    let shown := Text.decodeLossy written
    let between : Bytes := if written = [] then [] else [0x2F]
    match part with
    | .root => .error (.path "paths in archives must be relative" shown)
    | .current =>
      if rest = [] then headerPath cutOff (written ++ between ++ [0x2E]) rest
      else headerPath cutOff written rest
    | .parent =>
      if cutOff ∧ rest = [] then headerPath cutOff (written ++ between ++ [0x2E, 0x2E]) rest
      else .error (.path "paths in archives must not have \u0060..\u0060" shown)
    | .name text =>
      if (0 : UInt8) ∈ Text.bytes text then
        .error (.path "provided value contains a nul byte"
          (Text.decodeLossy (written ++ between)))
      else headerPath cutOff (written ++ between ++ Text.bytes text) rest

/-- The name that a header has for a path; a path that ends with a slash keeps it. -/
def headerName (cutOff : Bool) (path : String) : Except Flaw Bytes := do
  let name ← headerPath cutOff [] (Component.ofText path)
  if name = [] then
    throw (.path "paths in archives must have at least one component" "")
  return if path.toList.getLast? = some '/' then name ++ [0x2F] else name

/-- The beginning of a path that fits into a header, cut between two characters. -/
def beginning (path : String) : String :=
  let fitting := (Text.bytes path).take nameWidth
  match Text.decode fitting with
  | .ok text => text
  | .error flaw =>
    match Text.decode (fitting.take flaw.index) with
    | .ok text => text
    | .error _ => ""

/-- A header with its content. -/
def record (h : Header) (content : Bytes) : Bytes :=
  h.toBytes ++ content ++ List.replicate (padding content.length) 0

/-- The member that carries a long name. -/
def longName (path : String) : Bytes :=
  let content := Text.bytes path ++ [0]
  record ⟨Text.bytes "././@LongLink", 0o644, some 0, content.length, 0x4C⟩ content

/-- The records of one file. -/
def fileRecords (path : String) (content : Bytes) : Except Flaw Bytes := do
  let plain (name : Bytes) : Bytes := record ⟨name, 0o644, none, content.length, 0⟩ content
  match headerName false path with
  | .ok name =>
    if name.length ≤ nameWidth then return plain name
    else return longName path ++ plain (← headerName true (beginning path))
  | .error flaw =>
    if path.utf8ByteSize < nameWidth then throw flaw
    else return longName path ++ plain (← headerName true (beginning path))

/-- The archive of a list of files. -/
def write (files : List (String × Bytes)) : Except Flaw Bytes := do
  let records ← files.mapM fun (path, content) => fileRecords path content
  return records.flatten ++ List.replicate (2 * blockSize) 0

/-! ## Reading -/

/-- A member of an archive. -/
structure Member where
  path : Bytes
  mode : Nat
  kind : UInt8
  content : Bytes
  deriving Repr, DecidableEq

/-- A regular file. -/
def Member.isFile (m : Member) : Bool := m.kind == 0 || m.kind == 0x30

/-- The bytes of a field up to the first zero byte. -/
def cut (b : Bytes) : Bytes := b.takeWhile fun byte => byte ≠ 0

/-- The bytes of a block from one place up to another. -/
def slice (first last : Nat) (block : Bytes) : Bytes := (block.drop first).take (last - first)

/-- Octal digits, at least one, with an optional plus sign. -/
def readOctal? (s : List Char) : Option Nat :=
  let digits := match s with
    | '+' :: rest => rest
    | s => s
  if digits ≠ [] ∧ digits.all fun c => '0' ≤ c && c ≤ '7' then
    some (digits.foldl (fun n c => n * 8 + (c.toNat - '0'.toNat)) 0)
  else none

/-- An octal number with blanks around it. -/
def readNumber (b : Bytes) : Except Flaw Nat :=
  let text := Text.decodeLossy (cut b)
  match readOctal? (Text.trim text.toList) with
  | some n => .ok n
  | none => .error (.notANumber text)

/-- The size of a member: octal, or the last eight bytes as a number if the first bit is set. -/
def readSize (b : Bytes) : Except Flaw Nat :=
  if b.head?.any fun first => 0x80 ≤ first then
    .ok ((b.drop (b.length - 8)).foldl (fun n byte => n * 256 + byte.toNat) 0)
  else readNumber b

/-- What can be described before the member that it belongs to: long names, long link names, and
extended headers. -/
def extensionKinds : List UInt8 := [0x4C, 0x4B, 0x78]

/-- Whether a block is a header of a format that knows extensions. -/
def knowsExtensions (block : Bytes) : Bool :=
  let magic := slice 257 265 block
  magic = Text.bytes "ustar  " ++ [0] || magic = Text.bytes "ustar" ++ [0] ++ Text.bytes "00"

/-- The checksum that a block should have. -/
def checksum (block : Bytes) : Nat := sum (block.take 148) + sum (block.drop 156) + 8 * 0x20

/-- The member that a block is the header of, with the content that is there. -/
def readHeader (block after : Bytes) : Except Flaw (Member × Nat) := do
  if (← readNumber (slice 148 156 block)) ≠ checksum block then throw .wrongChecksum
  let size ← readSize (slice 124 136 block)
  let mode := (readNumber (slice 100 108 block)).toOption.getD 0
  return (⟨cut (block.take nameWidth), mode, block.getD 156 0, after.take size⟩, size)

/-- What lies at one place of an archive. -/
inductive Found where
  /-- The end, or something wrong. -/
  | nothing (flaw : Option Flaw)
  /-- A member, the number of bytes to pass over after its header, and the bytes there. -/
  | member (m : Member) (isExtension : Bool) (pass : Nat) (after : Bytes)

/-- What a block and the bytes after it are. An empty block is the end, as is no block at all. -/
def findIn (block after : Bytes) : Found :=
  if block = [] then .nothing none
  else if block.length < blockSize then .nothing (some .brokenHeader)
  else if block.all (· == 0) then .nothing none
  else match readHeader block after with
    | .error flaw => .nothing (some flaw)
    | .ok (m, size) =>
      .member m (knowsExtensions block && extensionKinds.contains m.kind) (size + padding size)
        after

/-- Passes over bytes and looks at what comes next. -/
def find (pass : Nat) (bytes : Bytes) : Found :=
  if bytes.length < pass then .nothing (some .cutShort)
  else findIn ((bytes.drop pass).take blockSize) (bytes.drop (pass + blockSize))

theorem of_findIn_eq_member {block after after' : Bytes} {m : Member} {isExtension : Bool}
    {pass : Nat} (h : findIn block after = .member m isExtension pass after') :
    block ≠ [] ∧ after' = after := by
  unfold findIn at h
  split at h
  · cases h
  · rename_i present
    split at h
    · cases h
    · split at h
      · cases h
      · split at h
        · cases h
        · cases h
          exact ⟨present, rfl⟩

/-- Each member takes at least its header. -/
theorem length_lt_of_find {pass next : Nat} {bytes after : Bytes} {m : Member} {isExtension : Bool}
    (h : find pass bytes = .member m isExtension next after) : after.length < bytes.length := by
  unfold find at h
  split at h
  · cases h
  · obtain ⟨present, rfl⟩ := of_findIn_eq_member h
    have : 0 < bytes.length := by
      rcases bytes with _ | ⟨b, rest⟩
      · simp at present
      · simp
    simp only [List.length_drop, blockSize]
    omega

/-- The path of a member: the long name before it, without the zero byte at its end, or the name in
its header. -/
def pathOf (extensions : List (UInt8 × Bytes)) (m : Member) : Bytes :=
  match extensions.find? fun e => e.1 = 0x4C with
  | some (_, name) => if name.getLast? = some 0 then name.dropLast else name
  | none => m.path

/-- Reads members from a place on. The extensions are those that wait for their member, by kind and
content. -/
def readFrom (extensions : List (UInt8 × Bytes)) (pass : Nat) (bytes : Bytes) :
    List Member × Option Flaw :=
  match _h : find pass bytes with
  | .nothing (some flaw) => ([], some flaw)
  | .nothing none => ([], if extensions = [] then none else some .missingMember)
  | .member m true pass after =>
    if extensions.any fun e => e.1 = m.kind then ([], some .repeatedExtension)
    else readFrom ((m.kind, m.content) :: extensions) pass after
  | .member m false pass after =>
    let (members, flaw) := readFrom [] pass after
    ({ m with path := pathOf extensions m } :: members, flaw)
termination_by bytes.length
decreasing_by all_goals exact length_lt_of_find ‹_›

/-- The members up to the end or to the first flaw. -/
def read (bytes : Bytes) : List Member × Option Flaw := readFrom [] 0 bytes

/-- The content of the first regular file. -/
def firstFile (bytes : Bytes) : Except Flaw (Option Bytes) :=
  match read bytes with
  | (members, flaw) =>
    match members.find? Member.isFile, flaw with
    | some m, _ => .ok (some m.content)
    | none, some flaw => .error flaw
    | none, none => .ok none

end CachedRun.Archive
