import CachedRun.Proofs.Store.Memory
import Mathlib.Algebra.Group.Nat.Defs
import Mathlib.Data.List.Nodup
import Mathlib.Data.List.Perm.Subperm

/-!
# Accounting — the counters of the cache in memory

A cache in memory counts twice: the weight of what it holds, and the entries that it was ever given.
Both counters are changed where entries come and go, in four places, and nothing compares them with
the entries afterwards. `Accounted` says what they are to be, and `Reaches.accounted` that they are
that, **after any accesses, at any times, and in whatever order a hashed table keeps its entries**.

The counters of a program are words of a machine. `Words.access` is an access as a machine computes
it, which fails where a word would go below nothing or overflow, and where the search for room comes
to its end without room. It does the same as an access in whole numbers, as long as there are words
for the numbers of the entries. Weights are sizes of what lies in memory, so each of them has one.

The cache is looked at behind its lock. Whoever breaks off with the lock in hand has changed neither
counter, and nobody changes one afterwards (`Proofs/Store/Lock.lean`).
-/

set_option autoImplicit false

namespace CachedRun.MemoryCache

variable {c d : MemoryCache} {key : String}

/-! ## Accesses -/

/-- What is asked of a cache. -/
inductive Access where
  | get (now : Instant) (key : String)
  | put (key : String) (entry : Entry)

/-- The answer to an access, and the cache after it. To a new entry there is none. -/
def access (c : MemoryCache) : Access → Option Entry × MemoryCache
  | .get now key => c.get now key
  | .put key entry => (none, c.put key entry)

/-- The same cache, with its entries in another order. -/
structure Alike (c d : MemoryCache) : Prop where
  maxWeight : d.maxWeight = c.maxWeight
  lifetime : d.lifetime = c.lifetime
  entries : d.entries.Perm c.entries
  totalWeight : d.totalWeight = c.totalWeight
  nextSequence : d.nextSequence = c.nextSequence

/-- From one cache to another by accesses with these answers. A hashed table keeps no order, so
before each access, and in the end, the entries may lie in another one. -/
inductive Reaches : MemoryCache → List Access → List (Option Entry) → MemoryCache → Prop
  | done {c d : MemoryCache} (h : Alike c d) : Reaches c [] [] d
  | access {c b d : MemoryCache} {accesses : List Access} {answers : List (Option Entry)}
      (a : Access) (h : Alike c b) (rest : Reaches (b.access a).2 accesses answers d) :
      Reaches c (a :: accesses) ((b.access a).1 :: answers) d

/-! ## What goes away

Entries go away in three places: under a key that is put again, to make room, and when they have
expired. For all of them it is enough to know that what is left was there. -/

/-- What is left of a cache that has dropped entries. -/
structure Remains (c d : MemoryCache) : Prop where
  maxWeight : d.maxWeight = c.maxWeight
  lifetime : d.lifetime = c.lifetime
  entries : d.entries.Sublist c.entries
  nextSequence : d.nextSequence = c.nextSequence

theorem Remains.refl : Remains c c := ⟨rfl, rfl, .refl _, rfl⟩

theorem Remains.trans {b : MemoryCache} (h : Remains b c) (h' : Remains c d) : Remains b d :=
  ⟨h'.maxWeight.trans h.maxWeight, h'.lifetime.trans h.lifetime, h'.entries.trans h.entries,
    h'.nextSequence.trans h.nextSequence⟩

theorem entries_drop (c : MemoryCache) (key : String) :
    (c.drop key).entries = c.entries.filter fun e => e.1 ≠ key := by
  unfold drop
  cases hfind : c.find? key with
  | some stored => rfl
  | none =>
    rw [find?, Option.map_eq_none_iff, List.find?_eq_none] at hfind
    refine (List.filter_eq_self.mpr fun e he => ?_).symm
    simpa using hfind e he

theorem remains_drop : Remains c (c.drop key) := by
  refine ⟨?_, lifetime_drop, ?_, ?_⟩
  · unfold drop
    split <;> rfl
  · rw [entries_drop]
    exact List.filter_sublist
  · unfold drop
    split <;> rfl

theorem remains_makeRoom {weight fuel : Nat} : Remains c (makeRoom weight fuel c) := by
  induction fuel generalizing c with
  | zero => exact .refl
  | succ fuel ih =>
    rw [makeRoom]
    split
    · split
      · exact remains_drop.trans ih
      · exact .refl
    · exact .refl

/-- An entry and those of other keys are all that there is. -/
theorem perm_cons_filter {l : List (String × Stored)} (hkeys : (l.map Prod.fst).Nodup)
    {e : String × Stored} (he : e ∈ l) : l.Perm (e :: l.filter fun d => d.1 ≠ e.1) := by
  induction l with
  | nil => cases he
  | cons a l ih =>
    rw [List.map_cons, List.nodup_cons] at hkeys
    rcases List.mem_cons.mp he with rfl | he
    · have hothers : l.filter (fun d => d.1 ≠ e.1) = l := by
        refine List.filter_eq_self.mpr fun d hd => decide_eq_true fun heq => hkeys.1 ?_
        exact heq ▸ List.mem_map_of_mem hd
      rw [List.filter_cons_of_neg (by simp), hothers]
    · have hne : a.1 ≠ e.1 := fun heq => hkeys.1 (heq ▸ List.mem_map_of_mem he)
      rw [List.filter_cons_of_pos (by simpa using hne)]
      exact ((ih hkeys.2 he).cons a).trans (.swap ..)

/-! ## The oldest entry

The search compares numbers, and these are distinct, so it does not matter in which order it sees
the entries. Here it is only said that what it ends with is the least. -/

/-- The search for the oldest entry ends with one that is no younger than any it has passed. -/
theorem foldl_oldest (l : List (String × Stored)) (b : String × Stored) :
    ∃ e ∈ b :: l, l.foldl older (some b) = some e ∧
      ∀ d ∈ b :: l, e.2.sequence ≤ d.2.sequence := by
  induction l generalizing b with
  | nil => exact ⟨b, List.mem_cons_self .., rfl, by simp⟩
  | cons a l ih =>
    rw [List.foldl_cons]
    -- The better one of the first two goes on into the search among the others.
    by_cases hless : a.2.sequence < b.2.sequence
    · obtain ⟨e, he, hfold, hleast⟩ := ih a
      simp only [older, if_pos hless]
      refine ⟨e, List.mem_cons_of_mem _ he, hfold, List.forall_mem_cons.mpr ⟨?_, hleast⟩⟩
      have hfirst := hleast a (List.mem_cons_self ..)
      omega
    · obtain ⟨e, he, hfold, hleast⟩ := ih b
      simp only [older, if_neg hless]
      rw [List.forall_mem_cons] at hleast
      refine ⟨e, ?_, hfold, ?_⟩
      · rcases List.mem_cons.mp he with rfl | he
        · exact List.mem_cons_self ..
        · exact List.mem_cons_of_mem _ (List.mem_cons_of_mem _ he)
      · rw [List.forall_mem_cons, List.forall_mem_cons]
        exact ⟨hleast.1, by omega, hleast.2⟩

/-- The oldest entry is the one of the least number, if there is one at all. -/
theorem oldest?_eq (c : MemoryCache) : c.entries = [] ∧ c.oldest? = none ∨
    ∃ e ∈ c.entries, c.oldest? = some e.1 ∧ ∀ d ∈ c.entries, e.2.sequence ≤ d.2.sequence := by
  unfold oldest?
  cases c.entries with
  | nil => exact .inl ⟨rfl, rfl⟩
  | cons a l =>
    obtain ⟨e, he, hfold, hleast⟩ := foldl_oldest l a
    rw [List.foldl_cons]
    exact .inr ⟨e, he, congrArg (Option.map Prod.fst) hfold, hleast⟩

/-! ## Accounts

The weight is counted and not added up again, so what is true of it is an equation with the
entries. It is also why an entry keeps its weight: what is taken off has to be what was added. -/

/-- **What the counters are to be.** -/
structure Accounted (c : MemoryCache) : Prop where
  /-- A key has one entry. -/
  keys : (c.entries.map Prod.fst).Nodup
  weights : ∀ e ∈ c.entries, e.2.weight = e.2.entry.weight
  counted : c.totalWeight = total (c.entries.map fun e => e.2.weight)
  fits : c.totalWeight ≤ c.maxWeight
  sequences : (c.entries.map fun e => e.2.sequence).Nodup
  below : ∀ e ∈ c.entries, e.2.sequence < c.nextSequence

theorem accounted_empty (maxWeight lifetime : Nat) : (empty maxWeight lifetime).Accounted where
  keys := .nil
  weights := nofun
  counted := rfl
  fits := Nat.zero_le _
  sequences := .nil
  below := nofun

theorem Alike.accounted (h : Alike c d) (hc : c.Accounted) : d.Accounted where
  keys := (h.entries.map _).nodup_iff.mpr hc.keys
  weights e he := hc.weights e (h.entries.mem_iff.mp he)
  counted := by rw [h.totalWeight, hc.counted, total_perm (h.entries.map _)]
  fits := by
    rw [h.totalWeight, h.maxWeight]
    exact hc.fits
  sequences := (h.entries.map _).nodup_iff.mpr hc.sequences
  below e he := by
    rw [h.nextSequence]
    exact hc.below e (h.entries.mem_iff.mp he)

namespace Accounted

theorem totalWeight_of_empty (h : c.Accounted) (hempty : c.entries = []) : c.totalWeight = 0 := by
  rw [h.counted, hempty]
  rfl

/-- The weight of an entry is counted. -/
theorem totalWeight_eq (h : c.Accounted) {stored : Stored} (hfind : c.find? key = some stored) :
    c.totalWeight = stored.weight +
      total ((c.drop key).entries.map fun e => e.2.weight) := by
  have hperm := perm_cons_filter h.keys (mem_of_find? hfind)
  rw [h.counted, total_perm (hperm.map _), entries_drop]
  rfl

theorem drop (h : c.Accounted) : (c.drop key).Accounted := by
  have hremains : Remains c (c.drop key) := remains_drop
  have htotal : (c.drop key).totalWeight =
      total ((c.drop key).entries.map fun e => e.2.weight) := by
    -- What was counted for the entry is taken off, and it was counted once.
    cases hfind : c.find? key with
    | none =>
      have hsame : c.drop key = c := by rw [MemoryCache.drop, hfind]
      rw [hsame, h.counted]
    | some stored =>
      have hweight : (c.drop key).totalWeight = c.totalWeight - stored.weight := by
        rw [MemoryCache.drop, hfind]
      rw [hweight, h.totalWeight_eq hfind, Nat.add_sub_cancel_left]
  have hless : (c.drop key).totalWeight ≤ c.totalWeight := by
    unfold MemoryCache.drop
    split
    · exact Nat.le_refl _
    · exact Nat.sub_le ..
  exact {
    keys := h.keys.sublist (hremains.entries.map _)
    weights := fun e he => h.weights e (hremains.entries.subset he)
    counted := htotal
    fits := by
      rw [hremains.maxWeight]
      exact Nat.le_trans hless h.fits
    sequences := h.sequences.sublist (hremains.entries.map _)
    below := fun e he => by
      rw [hremains.nextSequence]
      exact h.below e (hremains.entries.subset he) }

theorem makeRoom (h : c.Accounted) {weight fuel : Nat} :
    (makeRoom weight fuel c).Accounted := by
  induction fuel generalizing c with
  | zero => exact h
  | succ fuel ih =>
    rw [MemoryCache.makeRoom]
    split
    · split
      · exact ih h.drop
      · exact h
    · exact h

end Accounted

/-- To drop the oldest entry shortens the search. -/
theorem length_drop_oldest {e : String × Stored} (he : e ∈ c.entries) :
    (c.drop e.1).entries.length < c.entries.length := by
  rw [entries_drop]
  exact List.length_filter_lt_length_iff_exists.mpr ⟨e, he, by simp⟩

/-- **The search for room ends with room**, not for want of entries. Each round drops one, so there
are rounds for all of them, and without entries nothing is counted. -/
theorem makeRoom_fits (h : c.Accounted) {weight fuel : Nat} (hfuel : c.entries.length ≤ fuel)
    (hweight : weight ≤ c.maxWeight) :
    (makeRoom weight fuel c).totalWeight + weight ≤ c.maxWeight := by
  induction fuel generalizing c with
  | zero =>
    have hempty : c.entries = [] := List.length_eq_zero_iff.mp (Nat.le_zero.mp hfuel)
    have htotal := h.totalWeight_of_empty hempty
    rw [makeRoom, htotal, Nat.zero_add]
    exact hweight
  | succ fuel ih =>
    rw [makeRoom]
    split
    case isFalse hfits => exact Nat.le_of_not_lt hfits
    case isTrue hover =>
      rcases oldest?_eq c with ⟨hempty, -⟩ | ⟨e, he, holdest, -⟩
      · have htotal := h.totalWeight_of_empty hempty
        omega
      · have hmax : (c.drop e.1).maxWeight = c.maxWeight := remains_drop.maxWeight
        have hshorter := length_drop_oldest he
        rw [holdest, ← hmax]
        exact ih h.drop (by omega) (by rwa [remains_drop.maxWeight])

/-! ## Accesses keep the accounts

An access drops an entry, or makes room and adds one. Each of the two steps keeps the accounts. -/

/-- A cache with room for a weight under a key: without the entry of the key, and without the oldest
of the others. -/
def cleared (c : MemoryCache) (key : String) (weight : Nat) : MemoryCache :=
  makeRoom weight (c.drop key).entries.length (c.drop key)

/-- A cache with a new entry. -/
def add (c : MemoryCache) (key : String) (entry : Entry) : MemoryCache :=
  { c with
    entries := (key, ⟨entry, entry.weight, c.nextSequence⟩) :: c.entries
    totalWeight := c.totalWeight + entry.weight
    nextSequence := c.nextSequence + 1 }

theorem put_of_heavy {entry : Entry} (h : c.maxWeight < entry.weight) : c.put key entry = c :=
  if_pos h

theorem put_of_light {entry : Entry} (h : entry.weight ≤ c.maxWeight) :
    c.put key entry = (c.cleared key entry.weight).add key entry :=
  if_neg (Nat.not_lt.mpr h)

theorem remains_cleared {weight : Nat} : Remains c (c.cleared key weight) :=
  remains_drop.trans remains_makeRoom

/-- Of the key nothing is left. -/
theorem not_mem_cleared {weight : Nat} : key ∉ (c.cleared key weight).entries.map Prod.fst := by
  intro hmem
  obtain ⟨e, he, heq⟩ := List.mem_map.mp hmem
  have hleft : Remains (c.drop key) (c.cleared key weight) := remains_makeRoom
  have hother := hleft.entries.subset he
  rw [entries_drop, List.mem_filter] at hother
  exact of_decide_eq_true hother.2 heq

theorem cleared_fits (h : c.Accounted) {weight : Nat} (hweight : weight ≤ c.maxWeight) :
    (c.cleared key weight).totalWeight + weight ≤ c.maxWeight := by
  have hmax : (c.drop key).maxWeight = c.maxWeight := remains_drop.maxWeight
  rw [← hmax] at hweight ⊢
  exact makeRoom_fits h.drop (Nat.le_refl _) hweight

namespace Accounted

theorem cleared (h : c.Accounted) {weight : Nat} : (c.cleared key weight).Accounted :=
  h.drop.makeRoom

theorem add (h : c.Accounted) {entry : Entry} (hnew : key ∉ c.entries.map Prod.fst)
    (hfits : c.totalWeight + entry.weight ≤ c.maxWeight) : (c.add key entry).Accounted where
  keys := List.nodup_cons.mpr ⟨hnew, h.keys⟩
  weights := List.forall_mem_cons.mpr ⟨rfl, h.weights⟩
  counted := by
    rw [MemoryCache.add, h.counted, Nat.add_comm]
    rfl
  fits := hfits
  sequences := by
    -- No number is as high as the next one.
    refine List.nodup_cons.mpr ⟨fun hmem => ?_, h.sequences⟩
    obtain ⟨e, he, heq⟩ := List.mem_map.mp hmem
    exact Nat.lt_irrefl _ (heq ▸ h.below e he)
  below := List.forall_mem_cons.mpr
    ⟨Nat.lt_succ_self _, fun e he => Nat.lt_succ_of_lt (h.below e he)⟩

theorem put (h : c.Accounted) (entry : Entry) : (c.put key entry).Accounted := by
  rcases Nat.lt_or_ge c.maxWeight entry.weight with hheavy | hlight
  · rw [put_of_heavy hheavy]
    exact h
  · rw [put_of_light hlight]
    refine h.cleared.add not_mem_cleared ?_
    rw [remains_cleared.maxWeight]
    exact cleared_fits h hlight

/-- **One access** keeps the accounts. -/
theorem access (h : c.Accounted) (a : Access) : (c.access a).2.Accounted := by
  cases a with
  | put key entry => exact h.put entry
  | get now key =>
    rw [MemoryCache.access]
    rcases @get_snd c key now with hsame | ⟨stored, -, -, hdropped⟩
    · rw [hsame]
      exact h
    · rw [hdropped]
      exact h.drop

end Accounted

/-- What an access does to the settings, and how far the numbers get. -/
theorem settings_access (a : Access) : (c.access a).2.maxWeight = c.maxWeight ∧
    (c.access a).2.lifetime = c.lifetime ∧ (c.access a).2.nextSequence ≤ c.nextSequence + 1 := by
  -- What only drops entries keeps the settings and gives no number.
  have hremains (d : MemoryCache) (h : Remains c d) : d.maxWeight = c.maxWeight ∧
      d.lifetime = c.lifetime ∧ d.nextSequence ≤ c.nextSequence + 1 :=
    ⟨h.maxWeight, h.lifetime, h.nextSequence ▸ Nat.le_succ _⟩
  cases a with
  | get now key =>
    rw [access]
    rcases @get_snd c key now with hsame | ⟨stored, -, -, hdropped⟩
    · rw [hsame]
      exact hremains _ .refl
    · rw [hdropped]
      exact hremains _ remains_drop
  | put key entry =>
    rw [access]
    rcases Nat.lt_or_ge c.maxWeight entry.weight with hheavy | hlight
    · rw [put_of_heavy hheavy]
      exact hremains _ .refl
    · rw [put_of_light hlight]
      have hcleared : Remains c (c.cleared key entry.weight) := remains_cleared
      exact ⟨hcleared.maxWeight, hcleared.lifetime,
        Nat.le_of_eq (congrArg (· + 1) hcleared.nextSequence)⟩

/-- **Any accesses** keep the accounts, and there are no more numbers than accesses. -/
theorem Reaches.accounted {accesses : List Access} {answers : List (Option Entry)}
    (h : Reaches c accesses answers d) (hc : c.Accounted) :
    d.Accounted ∧ d.maxWeight = c.maxWeight ∧ d.lifetime = c.lifetime ∧
      d.nextSequence ≤ c.nextSequence + accesses.length := by
  induction h with
  | done halike =>
    exact ⟨halike.accounted hc, halike.maxWeight, halike.lifetime,
      Nat.le_of_eq halike.nextSequence⟩
  | @access c c' d accesses answers a halike rest ih =>
    obtain ⟨hd, hmax, hlifetime, hnext⟩ := ih ((halike.accounted hc).access a)
    obtain ⟨hmax', hlifetime', hnext'⟩ := settings_access (c := c') a
    rw [halike.nextSequence] at hnext'
    refine ⟨hd, ?_, ?_, ?_⟩
    · rw [hmax, hmax', halike.maxWeight]
    · rw [hlifetime, hlifetime', halike.lifetime]
    · rw [List.length_cons]
      omega

/-! ## Words of a machine

The same accesses in words, with a fault for each way to leave them. It is not said here what a
machine does then, but that it does not come to it. -/

/-- What can go wrong in a word, and in a search for room. -/
inductive Overrun where
  /-- More weight is taken off than was counted. -/
  | below
  /-- A weight needs more than a word. -/
  | above
  /-- The number of an entry needs more than a word. -/
  | number
  /-- No entry is left, and there is no room. -/
  | noRoom
  deriving DecidableEq

namespace Words

/-- How many values a word has. -/
def size : Nat := 2 ^ 64

def subtract (a b : Nat) : Except Overrun Nat := if b ≤ a then .ok (a - b) else .error .below

/-- A sum in a word. What goes wrong if it is too large is a parameter. -/
def sum (overrun : Overrun) (a b : Nat) : Except Overrun Nat :=
  if a + b < size then .ok (a + b) else .error overrun

/-- The weight of an entry, added up output by output. -/
def weigh (e : Entry) : Except Overrun Nat :=
  e.outputs.foldlM (fun n o => do sum .above n (← sum .above o.1.utf8ByteSize o.2.weight)) 0

def drop (c : MemoryCache) (key : String) : Except Overrun MemoryCache :=
  match c.find? key with
  | none => .ok c
  | some stored => do
    let totalWeight ← subtract c.totalWeight stored.weight
    return { c with entries := c.entries.filter (fun e => e.1 ≠ key), totalWeight }

/-- The search for room, of at most as many rounds as the number says. -/
def makeRoom (weight : Nat) : Nat → MemoryCache → Except Overrun MemoryCache
  | 0, c => do
    let needed ← sum .above c.totalWeight weight
    if c.maxWeight < needed then .error .noRoom else .ok c
  | rounds + 1, c => do
    let needed ← sum .above c.totalWeight weight
    if c.maxWeight < needed then
      match c.oldest? with
      | some key => do
        let c ← drop c key
        makeRoom weight rounds c
      | none => .error .noRoom
    else .ok c

def get (c : MemoryCache) (now : Instant) (key : String) :
    Except Overrun (Option Entry × MemoryCache) :=
  match c.find? key with
  | none => .ok (none, c)
  | some stored =>
    if stored.entry.isExpired c.lifetime now then (drop c key).map (none, ·)
    else .ok (some stored.entry, c)

def put (c : MemoryCache) (key : String) (entry : Entry) : Except Overrun MemoryCache := do
  let weight ← weigh entry
  if c.maxWeight < weight then .ok c
  else
    let c ← drop c key
    let c ← makeRoom weight c.entries.length c
    let nextSequence ← sum .number c.nextSequence 1
    let totalWeight ← sum .above c.totalWeight weight
    return { c with
      entries := (key, ⟨entry, weight, c.nextSequence⟩) :: c.entries, totalWeight, nextSequence }

/-- An access as a machine computes it. -/
def access (c : MemoryCache) : Access → Except Overrun (Option Entry × MemoryCache)
  | .get now key => get c now key
  | .put key entry => (put c key entry).map (none, ·)

theorem foldlM_weigh (l : List (String × Value)) (n : Nat)
    (h : n + total (l.map fun o => o.1.utf8ByteSize + o.2.weight) < size) :
    l.foldlM (fun n o => do sum .above n (← sum .above o.1.utf8ByteSize o.2.weight)) n =
      .ok (n + total (l.map fun o => o.1.utf8ByteSize + o.2.weight)) := by
  induction l generalizing n with
  | nil => rfl
  | cons o l ih =>
    rw [List.map_cons, total, ← Nat.add_assoc] at h ⊢
    have hone : sum .above o.1.utf8ByteSize o.2.weight = .ok (o.1.utf8ByteSize + o.2.weight) :=
      if_pos (by omega)
    have hnext : sum .above n (o.1.utf8ByteSize + o.2.weight) =
        .ok (n + (o.1.utf8ByteSize + o.2.weight)) := if_pos (by omega)
    rw [List.foldlM_cons]
    simp only [hone, hnext, bind, Except.bind]
    exact ih _ h

theorem weigh_eq {e : Entry} (h : e.weight < size) : weigh e = .ok e.weight := by
  have hweight : weigh e = .ok (0 + e.weight) :=
    foldlM_weigh e.outputs 0 (Nat.lt_of_le_of_lt (Nat.le_of_eq (Nat.zero_add e.weight)) h)
  rwa [Nat.zero_add] at hweight

theorem drop_eq (h : c.Accounted) : drop c key = .ok (c.drop key) := by
  unfold drop
  cases hfind : c.find? key with
  | none => rw [MemoryCache.drop, hfind]
  | some stored =>
    have hcounted : stored.weight ≤ c.totalWeight := by
      rw [h.totalWeight_eq hfind]
      exact Nat.le_add_right ..
    rw [MemoryCache.drop, hfind]
    simp only [subtract, if_pos hcounted]
    rfl

/-- A limit of half a word leaves room for the weight of a new entry in a word. -/
theorem sum_eq (h : c.Accounted) (hmax : c.maxWeight < 2 ^ 63) {weight : Nat}
    (hweight : weight ≤ c.maxWeight) :
    sum .above c.totalWeight weight = .ok (c.totalWeight + weight) := by
  have hfits := h.fits
  refine if_pos ?_
  rw [size]
  omega

theorem makeRoom_eq (h : c.Accounted) (hmax : c.maxWeight < 2 ^ 63) {weight rounds : Nat}
    (hweight : weight ≤ c.maxWeight) (hrounds : c.entries.length ≤ rounds) :
    makeRoom weight rounds c = .ok (MemoryCache.makeRoom weight rounds c) := by
  induction rounds generalizing c with
  | zero =>
    have hempty : c.entries = [] := List.length_eq_zero_iff.mp (Nat.le_zero.mp hrounds)
    have htotal := h.totalWeight_of_empty hempty
    have hfits : ¬ c.maxWeight < c.totalWeight + weight := by omega
    rw [makeRoom, sum_eq h hmax hweight]
    exact if_neg hfits
  | succ rounds ih =>
    rw [makeRoom, sum_eq h hmax hweight, MemoryCache.makeRoom]
    simp only [bind, Except.bind]
    split
    case isFalse => rfl
    case isTrue hover =>
      -- There is an oldest entry: an empty cache has room for anything that fits it.
      rcases oldest?_eq c with ⟨hempty, -⟩ | ⟨e, he, holdest, -⟩
      · have htotal := h.totalWeight_of_empty hempty
        omega
      · have hsame : (c.drop e.1).maxWeight = c.maxWeight := remains_drop.maxWeight
        have hshorter := length_drop_oldest he
        rw [holdest]
        simp only [drop_eq h]
        exact ih h.drop (by rwa [hsame]) (by rwa [hsame]) (by omega)

theorem get_eq (h : c.Accounted) (now : Instant) : get c now key = .ok (c.get now key) := by
  unfold get MemoryCache.get
  cases c.find? key with
  | none => rfl
  | some stored =>
    simp only
    split
    · rw [drop_eq h]
      rfl
    · rfl

theorem put_eq (h : c.Accounted) (hmax : c.maxWeight < 2 ^ 63) {entry : Entry}
    (hentry : entry.weight < size) : put c key entry = .ok (c.put key entry) ∨
      put c key entry = .error .number ∧ size ≤ c.nextSequence + 1 := by
  rw [put, weigh_eq hentry]
  simp only [bind, Except.bind]
  rcases Nat.lt_or_ge c.maxWeight entry.weight with hheavy | hlight
  · rw [put_of_heavy hheavy]
    exact .inl (if_pos hheavy)
  -- Room can be made, and the sum with it fits a word; only the number of the entry may not.
  · have hdropped : (c.drop key).maxWeight = c.maxWeight := remains_drop.maxWeight
    have hcleared : Remains c (c.cleared key entry.weight) := remains_cleared
    have hroom : makeRoom entry.weight (c.drop key).entries.length (c.drop key) =
        .ok (c.cleared key entry.weight) :=
      makeRoom_eq h.drop (by rwa [hdropped]) (by rwa [hdropped]) (Nat.le_refl _)
    have hsum : sum .above (c.cleared key entry.weight).totalWeight entry.weight =
        .ok ((c.cleared key entry.weight).totalWeight + entry.weight) :=
      sum_eq h.cleared (by rwa [hcleared.maxWeight]) (by rwa [hcleared.maxWeight])
    rw [put_of_light hlight, ← hcleared.nextSequence]
    simp only [if_neg (Nat.not_lt.mpr hlight), drop_eq h, hroom]
    by_cases hnumber : (c.cleared key entry.weight).nextSequence + 1 < size
    · have hnext : sum .number (c.cleared key entry.weight).nextSequence 1 = _ := if_pos hnumber
      left
      simp only [hnext, hsum]
      rfl
    · have hnext : sum .number (c.cleared key entry.weight).nextSequence 1 = _ := if_neg hnumber
      right
      simp only [hnext, true_and]
      exact Nat.not_lt.mp hnumber

/-- **An access in words** is one in whole numbers, if there are words for the weight of what is put
and for the number of the entry. -/
theorem access_eq (h : c.Accounted) (hmax : c.maxWeight < 2 ^ 63) (a : Access) :
    access c a = .ok (c.access a) ∨ access c a = .error .number ∧ size ≤ c.nextSequence + 1 ∨
      ∃ key entry, a = .put key entry ∧ size ≤ entry.weight := by
  cases a with
  | get now key => exact .inl (get_eq h now)
  | put key entry =>
    rcases Nat.lt_or_ge entry.weight size with hentry | hentry
    · rw [access, MemoryCache.access]
      rcases @put_eq _ key h hmax entry hentry with hput | ⟨hput, hnumber⟩
      · rw [hput]
        exact .inl rfl
      · rw [hput]
        exact .inr (.inl ⟨rfl, hnumber⟩)
    · exact .inr (.inr ⟨key, entry, rfl, hentry⟩)

end Words

/-- **The counters are right in every state**, and no access makes a word overrun: neither does a
difference go below nothing, nor a sum beyond the word, nor does the search for room run out of
entries. There are two exceptions, and neither can be met: what is put weighs more bytes than a word
can count, or there were as many accesses before as a word has values. -/
theorem accounts_hold {maxWeight lifetime : Nat} (hmax : maxWeight < 2 ^ 63)
    {accesses : List Access} {answers : List (Option Entry)} {c : MemoryCache}
    (h : Reaches (empty maxWeight lifetime) accesses answers c) :
    c.maxWeight = maxWeight ∧ c.Accounted ∧ c.nextSequence ≤ accesses.length ∧
      ∀ a, Words.access c a = .ok (c.access a) ∨
        Words.access c a = .error .number ∧ Words.size ≤ accesses.length + 1 ∨
        ∃ key entry, a = .put key entry ∧ Words.size ≤ entry.weight := by
  obtain ⟨haccounted, hsame, -, hnext⟩ := h.accounted (accounted_empty maxWeight lifetime)
  have hnext : c.nextSequence ≤ accesses.length := by simpa [empty] using hnext
  refine ⟨hsame, haccounted, hnext, fun a => ?_⟩
  rcases Words.access_eq haccounted (by rw [hsame]; exact hmax) a with hok | hnumber | hentry
  · exact .inl hok
  · exact .inr (.inl ⟨hnumber.1, by omega⟩)
  · exact .inr (.inr hentry)

/-! ### A bowl of pebbles -/

/-- An entry of weight 9. -/
def pebble : Entry := ⟨"pebble", ⟨0, 0⟩, [("n", .int 7)]⟩

/-- Puts of which the third replaces the first and the fourth takes the place of the second, and
requests of which the first misses, the second hits and the third comes too late. -/
def pebbles : List Access :=
  [.put "a" pebble, .put "b" pebble, .put "a" pebble, .put "c" pebble, .get ⟨10, 0⟩ "b",
    .get ⟨10, 0⟩ "a", .get ⟨100, 0⟩ "a"]

/-- After the last put. -/
def full : MemoryCache := ⟨20, 60, [("c", ⟨pebble, 9, 3⟩), ("a", ⟨pebble, 9, 2⟩)], 18, 4⟩

/-- After the last request, which drops what it asks for. -/
def bowl : MemoryCache := ⟨20, 60, [("c", ⟨pebble, 9, 3⟩)], 9, 4⟩

/-- Before the third access the table turns over. -/
theorem reaches_bowl :
    Reaches (empty 20 60) pebbles [none, none, none, none, none, some pebble, none] bowl := by
  refine .access (b := empty 20 60) _ ⟨rfl, rfl, .refl _, rfl, rfl⟩ ?_
  refine .access (b := ⟨20, 60, [("a", ⟨pebble, 9, 0⟩)], 9, 1⟩) _
    ⟨rfl, rfl, .refl _, rfl, rfl⟩ ?_
  refine .access (b := ⟨20, 60, [("a", ⟨pebble, 9, 0⟩), ("b", ⟨pebble, 9, 1⟩)], 18, 2⟩) _
    ⟨rfl, rfl, .swap .., rfl, rfl⟩ ?_
  refine .access (b := ⟨20, 60, [("a", ⟨pebble, 9, 2⟩), ("b", ⟨pebble, 9, 1⟩)], 18, 3⟩) _
    ⟨rfl, rfl, .refl _, rfl, rfl⟩ ?_
  refine .access (b := full) _ ⟨rfl, rfl, .refl _, rfl, rfl⟩ ?_
  refine .access (b := full) _ ⟨rfl, rfl, .refl _, rfl, rfl⟩ ?_
  refine .access (b := full) _ ⟨rfl, rfl, .refl _, rfl, rfl⟩ ?_
  exact .done ⟨rfl, rfl, .refl _, rfl, rfl⟩

theorem accounts_hold_bowl : 20 < 2 ^ 63 ∧
    Reaches (empty 20 60) pebbles [none, none, none, none, none, some pebble, none] bowl ∧
    bowl.maxWeight = 20 ∧ bowl.Accounted ∧ bowl.nextSequence ≤ pebbles.length ∧
      ∀ a, Words.access bowl a = .ok (bowl.access a) ∨
        Words.access bowl a = .error .number ∧ Words.size ≤ pebbles.length + 1 ∨
        ∃ key entry, a = .put key entry ∧ Words.size ≤ entry.weight :=
  ⟨by decide, reaches_bowl, accounts_hold (by decide) reaches_bowl⟩

end CachedRun.MemoryCache
