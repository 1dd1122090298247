import CachedRun.Fault
import CachedRun.Store.Entry
import CachedRun.Store.FileTree
import CachedRun.Store.Memory

/-!
# The cache on disk

The cache keeps one file for each entry. A key is sixty-four hexadecimal digits; its file lies in a
directory named by the first two, so that no directory grows too long, and no part of a path comes
from text that is not a key.

**Entries appear at once.** An entry is written under a name of its own beside its final place and
then renamed. A reader sees the old document or the new one; a writer that stops half-way leaves a
file that no key leads to. `Putting` is the three steps, and `put` takes one after the other.

**Collection.** `collect` removes what cannot be read or has expired, and then the oldest entries
until the rest fits. It goes by the names of files wherever they lie below the base directory, and a
name of the right length that is no key stops it.

**Lifetimes without an end.** `get` and `collect` speak of caches in which the end of every lifetime
can be told. Where it cannot, the program breaks off, which is what `get?` and `collect?` add.
-/

set_option autoImplicit false

namespace CachedRun

/-- A cache on disk: where it lies and what it may keep. The files are kept apart from it. -/
structure DiskCache where
  base : Path
  /-- In seconds. -/
  lifetime : Nat
  /-- The size that collection brings the entries down to, in bytes. -/
  maxBytes : Nat
  deriving Repr, DecidableEq

namespace DiskCache

/-- The length of a key. -/
def keyLength : Nat := 64

def isKeyChar (c : Char) : Bool := c.isDigit || ('a' ≤ c && c ≤ 'f')

/-- Sixty-four lowercase hexadecimal digits. -/
def isKey (key : String) : Bool := key.utf8ByteSize = keyLength && key.toList.all isKeyChar

/-- The directory that the file of a key lies in. -/
def shard (c : DiskCache) (key : String) : Path := c.base ++ [String.ofList (key.toList.take 2)]

/-- The path of the file of a key. -/
def entryPath (c : DiskCache) (key : String) : Except Fault Path :=
  if isKey key then .ok (c.shard key ++ [key ++ ".json"])
  else .error (.cacheRead s!"invalid cache key '{key}'")

/-- Whether there is anything at the place of a key. -/
def contains (c : DiskCache) (t : FileTree) (key : String) : Bool :=
  match c.entryPath key with
  | .ok path => t.occupied path
  | .error _ => false

/-- Opens a cache, whose directory is made if it is missing. -/
def create (t : FileTree) (base : Path) (shown : String) : Except Fault (DiskCache × FileTree) :=
  match t.createDirectories base with
  | .ok t => .ok (⟨base, MemoryCache.defaultLifetime, MemoryCache.defaultMaxWeight⟩, t)
  | .error flaw => .error (.cacheUnusable shown flaw.message)

/-! ## Reading -/

/-- Reads the entry at a path. -/
def readEntry (t : FileTree) (path : Path) : Except Fault Entry :=
  match t.read path with
  | .error flaw => .error (.cacheRead flaw.message)
  | .ok content =>
    match Entry.read? content with
    | some entry => .ok entry
    | none => .error (.cacheRead "the file holds no entry")

/-- The entry of a key, unless it has expired. -/
def get (c : DiskCache) (t : FileTree) (now : Instant) (key : String) :
    Except Fault (Option Entry) := do
  let path ← c.entryPath key
  if t.occupied path then
    let entry ← readEntry t path
    return if entry.isExpired c.lifetime now then none else some entry
  else return none

/-- The entry of a key, if one can be read, tells the end of its lifetime. -/
def tellsEnd (c : DiskCache) (t : FileTree) (key : String) : Bool :=
  match (c.entryPath key).bind (readEntry t) with
  | .ok entry => entry.tellsEnd c.lifetime
  | .error _ => true

/-- The entry of a key as the program asks for it. It breaks off without an answer where the end of
a lifetime cannot be told. -/
def get? (c : DiskCache) (t : FileTree) (now : Instant) (key : String) :
    Option (Except Fault (Option Entry)) :=
  if c.tellsEnd t key then some (c.get t now key) else none

/-! ## Writing -/

/-- A refused step of writing. -/
def writeFault {α : Type} (result : Except FileTree.Flaw α) : Except Fault α :=
  result.mapError fun flaw => .cacheWrite flaw.message

/-- The file that a document is written to first. -/
def temporaryPath (c : DiskCache) (key unique : String) : Path :=
  c.shard key ++ [key ++ ".tmp." ++ unique]

/-- The steps of storing a document. -/
inductive Putting where
  | makeShard
  | writeTemporary
  | rename
  deriving Repr, DecidableEq

/-- One step of storing a document under a key. A temporary file that cannot be renamed is
removed, which is the tree that comes with the fault. -/
def Putting.step (c : DiskCache) (key unique : String) (document : Bytes) (t : FileTree) :
    Putting → Except (FileTree.Flaw × FileTree) FileTree
  | .makeShard => (t.createDirectories (c.shard key)).mapError (·, t)
  | .writeTemporary => (t.write (c.temporaryPath key unique) document).mapError (·, t)
  | .rename =>
    (t.rename (c.temporaryPath key unique) (c.shard key ++ [key ++ ".json"])).mapError
      (·, t.unset (c.temporaryPath key unique))

/-- Takes steps until one is refused. -/
def Putting.run (c : DiskCache) (key unique : String) (document : Bytes) :
    List Putting → FileTree → Except Fault Unit × FileTree
  | [], t => (.ok (), t)
  | step :: rest, t =>
    match Putting.step c key unique document t step with
    | .ok t => Putting.run c key unique document rest t
    | .error (flaw, t) => (.error (.cacheWrite flaw.message), t)

/-- Stores an entry under a key, with a text that no other writer has. -/
def put (c : DiskCache) (t : FileTree) (unique key : String) (entry : Entry) :
    Except Fault Unit × FileTree :=
  match c.entryPath key with
  | .error fault => (.error fault, t)
  | .ok _ =>
    Putting.run c key unique entry.document [.makeShard, .writeTemporary, .rename] t

/-- Removes the entry of a key, if there is one. -/
def remove (c : DiskCache) (t : FileTree) (key : String) : Except Fault FileTree := do
  let path ← c.entryPath key
  if t.occupied path then writeFault (t.removeFile path) else return t

/-! ## All entries -/

/-- The files below the base directory. A base that is no directory cannot be listed, and one that
is missing holds nothing. -/
def files (c : DiskCache) (t : FileTree) : Except Fault (List (Path × Bytes)) :=
  match t.node? c.base with
  | some (.file _) => .error (.cacheRead FileTree.Flaw.notDirectory.message)
  | _ => .ok (t.filesBelow c.base)

/-- What the name of a file would be the entry of: any text of the length of a key. -/
def listedKey? (path : Path) : Option String := do
  let stem ← Text.dropEnding? ".json".toList (← path.getLast?).toList
  let key := String.ofList stem
  if key.utf8ByteSize = keyLength then some key else none

/-- The keys that files are named by, in ascending order. -/
def keys (c : DiskCache) (t : FileTree) : Except Fault (List String) :=
  (c.files t).map fun files =>
    (files.filterMap fun file => listedKey? file.1).mergeSort fun a b => decide (a ≤ b)

/-- The size of all files. -/
def totalSize (c : DiskCache) (t : FileTree) : Except Fault Nat :=
  (c.files t).map fun files => total (files.map fun file => file.2.length)

/-! ## Collection -/

/-- What collection has removed. -/
structure Collected where
  removed : Nat
  freed : Nat
  deriving Repr, DecidableEq

/-- A live entry as collection sees it. -/
structure Live where
  createdAt : Instant
  path : Path
  size : Nat
  deriving Repr

/-- What collection has done so far: the files that are left, what has been removed, and the live
entries in the order of their keys, last first. -/
structure Progress where
  tree : FileTree
  collected : Collected
  live : List Live

/-- Removes a file and counts it, if it can be removed. -/
def discard (t : FileTree) (done : Collected) (path : Path) (size : Nat) :
    Option (FileTree × Collected) :=
  match t.removeFile path with
  | .ok t => some (t, ⟨done.removed + 1, done.freed + size⟩)
  | .error _ => none

/-- Looks at the entry of one key. -/
def sift (c : DiskCache) (now : Instant) (p : Progress) (key : String) :
    Except Fault Progress := do
  let path ← c.entryPath key
  match p.tree.node? path with
  | none => return p
  | some node =>
    let size := match node with
      | .file content => content.length
      | .directory => 0
    let live? := match readEntry p.tree path with
      | .ok entry => if entry.isExpired c.lifetime now then none else some entry.createdAt
      | .error _ => none
    match live? with
    | some createdAt => return { p with live := ⟨createdAt, path, size⟩ :: p.live }
    | none =>
      match discard p.tree p.collected path size with
      | some (tree, collected) => return { p with tree, collected }
      | none => return p

/-- Removes live entries from the front while their sizes are too much together. -/
def shrink (maxBytes : Nat) : Nat → FileTree → Collected → List Live → FileTree × Collected
  | _, t, done, [] => (t, done)
  | total, t, done, entry :: rest =>
    if total ≤ maxBytes then (t, done)
    else match discard t done entry.path entry.size with
      | some (t, done) => shrink maxBytes (total - entry.size) t done rest
      | none => shrink maxBytes total t done rest

/-- Live entries by age, the oldest first; of one age they stay in the order of their keys. -/
def byAge (live : List Live) : List Live :=
  live.mergeSort fun a b => !b.createdAt.before a.createdAt

/-- Goes over the keys in turn; a fault comes with the files as they are by then. -/
def siftAll (c : DiskCache) (now : Instant) :
    Progress → List String → Except (Fault × FileTree) Progress
  | p, [] => .ok p
  | p, key :: rest =>
    match c.sift now p key with
    | .ok p => siftAll c now p rest
    | .error fault => .error (fault, p.tree)

/-- Removes unreadable and expired entries, and then the oldest until the others fit. -/
def collect (c : DiskCache) (t : FileTree) (now : Instant) :
    Except Fault Collected × FileTree :=
  match c.keys t with
  | .error fault => (.error fault, t)
  | .ok keys =>
    match c.siftAll now ⟨t, ⟨0, 0⟩, []⟩ keys with
    | .error (fault, t) => (.error fault, t)
    | .ok p =>
      let live := byAge p.live.reverse
      let (t, done) := shrink c.maxBytes (total (live.map Live.size)) p.tree p.collected live
      (.ok done, t)

/-- Collection as the program does it. It breaks off at the first entry whose end cannot be told,
and the files are then as the keys before that one have left them. -/
def collect? (c : DiskCache) (t : FileTree) (now : Instant) :
    Option (Except Fault Collected) × FileTree :=
  match c.keys t with
  | .error fault => (some (.error fault), t)
  | .ok keys =>
    if keys.all (c.tellsEnd t) then
      let (result, t) := c.collect t now
      (some result, t)
    else
      match c.siftAll now ⟨t, ⟨0, 0⟩, []⟩ (keys.takeWhile (c.tellsEnd t)) with
      | .error (fault, t) => (some (.error fault), t)
      | .ok p => (none, p.tree)

end DiskCache

end CachedRun
