import CachedRun.Fault
import CachedRun.Store.Entry

/-!
# The cache in memory

The cache keeps entries up to a total weight. A new entry makes room for itself by dropping the
entries that were stored longest ago; reading an entry does not make it younger. An entry that is
heavier than the whole cache is not stored, and an expired entry goes when it is asked for.

`MemoryCache` is what lies behind a lock, and its operations are those of somebody who holds the
lock and gets to the end. Not everybody does: who asks for an entry whose lifetime has no end in the
calendar breaks off with the lock in hand. `SharedCache` is the cache with its lock, as its users
have it. A lock that was lost is broken for good, and every access that needs it is refused.
-/

set_option autoImplicit false

namespace CachedRun

/-- An entry with its weight and its number in the order of storing. -/
structure Stored where
  entry : Entry
  weight : Nat
  sequence : Nat
  deriving Repr

/-- A cache in memory. -/
structure MemoryCache where
  maxWeight : Nat
  /-- In seconds. -/
  lifetime : Nat
  entries : List (String × Stored)
  totalWeight : Nat
  nextSequence : Nat
  deriving Repr

namespace MemoryCache

/-- The weight that a cache keeps if nothing else is said: 512 MiB. -/
def defaultMaxWeight : Nat := 512 * 1024 * 1024

/-- The lifetime of entries if nothing else is said: 60 days. -/
def defaultLifetime : Nat := 60 * 24 * 60 * 60

def empty (maxWeight lifetime : Nat) : MemoryCache := ⟨maxWeight, lifetime, [], 0, 0⟩

def find? (c : MemoryCache) (key : String) : Option Stored :=
  (c.entries.find? fun e => e.1 = key).map Prod.snd

/-- Drops the entry of a key and its weight. -/
def drop (c : MemoryCache) (key : String) : MemoryCache :=
  match c.find? key with
  | none => c
  | some stored =>
    { c with
      entries := c.entries.filter fun e => e.1 ≠ key
      totalWeight := c.totalWeight - stored.weight }

/-- The older one of the best entry so far and another; of two of one age the first. -/
def older (best : Option (String × Stored)) (e : String × Stored) : Option (String × Stored) :=
  match best with
  | some b => if e.2.sequence < b.2.sequence then some e else some b
  | none => some e

/-- The key of the entry that was stored longest ago. -/
def oldest? (c : MemoryCache) : Option String := (c.entries.foldl older none).map Prod.fst

/-- Drops the oldest entries until a weight fits, at most as many as the number says. -/
def makeRoom (weight : Nat) : Nat → MemoryCache → MemoryCache
  | 0, c => c
  | fuel + 1, c =>
    if c.maxWeight < c.totalWeight + weight then
      match c.oldest? with
      | some key => makeRoom weight fuel (c.drop key)
      | none => c
    else c

/-- The entry of a key. -/
def get (c : MemoryCache) (now : Instant) (key : String) : Option Entry × MemoryCache :=
  match c.find? key with
  | none => (none, c)
  | some stored =>
    if stored.entry.isExpired c.lifetime now then (none, c.drop key) else (some stored.entry, c)

/-- Stores an entry as the youngest one. -/
def put (c : MemoryCache) (key : String) (entry : Entry) : MemoryCache :=
  let weight := entry.weight
  if c.maxWeight < weight then c
  else
    let c := c.drop key
    let c := makeRoom weight c.entries.length c
    { c with
      entries := (key, ⟨entry, weight, c.nextSequence⟩) :: c.entries
      totalWeight := c.totalWeight + weight
      nextSequence := c.nextSequence + 1 }

/-- The entry of a key, if there is one, tells the end of its lifetime. -/
def tellsEnd (c : MemoryCache) (key : String) : Bool :=
  (c.find? key).all fun stored => stored.entry.tellsEnd c.lifetime

end MemoryCache

/-! ## The lock -/

/-- A cache in memory with its lock. -/
structure SharedCache where
  cache : MemoryCache
  /-- Somebody broke off while holding the lock. -/
  isBroken : Bool
  deriving Repr

namespace SharedCache

def empty (maxWeight lifetime : Nat) : SharedCache := ⟨.empty maxWeight lifetime, false⟩

/-- The fault of an access that needs a broken lock. -/
def lockBroken : Fault := .cacheRead "memory cache lock poisoned"

/-- The entry of a key. There is no answer from an access that breaks off, which breaks the lock. -/
def get (s : SharedCache) (now : Instant) (key : String) :
    Option (Except Fault (Option Entry)) × SharedCache :=
  if s.isBroken then (some (.error lockBroken), s)
  else if s.cache.tellsEnd key then
    (some (.ok (s.cache.get now key).1), { s with cache := (s.cache.get now key).2 })
  else (none, { s with isBroken := true })

/-- Stores an entry as the youngest one. What is too heavy is turned away without the lock. -/
def put (s : SharedCache) (key : String) (entry : Entry) : Except Fault Unit × SharedCache :=
  if s.cache.maxWeight < entry.weight then (.ok (), s)
  else if s.isBroken then (.error lockBroken, s)
  else (.ok (), { s with cache := s.cache.put key entry })

/-- The number of entries; none can be seen behind a broken lock. -/
def length (s : SharedCache) : Nat := if s.isBroken then 0 else s.cache.entries.length

/-- The weight of all entries; none can be seen behind a broken lock. -/
def totalWeight (s : SharedCache) : Nat := if s.isBroken then 0 else s.cache.totalWeight

end SharedCache

end CachedRun
