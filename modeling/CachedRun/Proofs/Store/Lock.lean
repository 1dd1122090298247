import CachedRun.Proofs.Store.Queue

/-!
# The lock — what is left of the queue when somebody breaks off

The cache in memory lies behind a lock. While the lock is whole, whoever holds it finds the queue of
`Proofs/Store/Queue.lean`: a new entry goes to the end, and as few as possible go from the front.
There is one way to lose the lock. The check of an entry adds its lifetime to the time it was made,
and where that sum lies beyond the calendar (`Entry.tellsEnd`), whoever asked breaks off with the
lock in hand. From then on every access that needs the lock is refused. No entry that fits is ever
stored again, and none is found, although the queue lies there as it was.

`queue_until_broken` puts both together: it is the history of any cache that was ever reached, with
what each access does to it next. The proof is a simulation in three lemmas. An access is one of the
cache behind the lock, or it breaks the lock, or it finds it broken (`access_of_told`,
`access_of_untold`, `access_of_broken`); so a run of accesses is a run of the cache behind the lock,
perhaps with one that breaks off and others that are refused after it (`Reaches.history`).
-/

set_option autoImplicit false

namespace CachedRun

namespace MemoryCache

/-- The end of what an access asks for can be told. -/
def Tells (c : MemoryCache) : Access → Prop
  | .get _ key => ∀ entry, (key, entry) ∈ c.queue → entry.tellsEnd c.lifetime = true
  | .put _ _ => True

theorem Accounted.tellsEnd_iff {c : MemoryCache} (h : c.Accounted) {key : String} :
    c.tellsEnd key = true ↔
      ∀ entry, (key, entry) ∈ c.queue → entry.tellsEnd c.lifetime = true := by
  unfold MemoryCache.tellsEnd
  rw [Option.all_eq_true]
  constructor
  · intro hall entry hmem
    obtain ⟨stored, hfind, rfl⟩ := h.mem_queue_iff.mp hmem
    exact hall stored hfind
  · intro hall stored hfind
    exact hall stored.entry (h.mem_queue_iff.mpr ⟨stored, hfind, rfl⟩)

/-- What was put last under some key was put at some time. -/
theorem put_mem_of_mem_lastPuts {limit : Nat} {accesses : List Access}
    {q : List (String × Entry)} {key : String} {entry : Entry}
    (h : (key, entry) ∈ accesses.foldl (lastPuts limit) q) :
    (key, entry) ∈ q ∨ Access.put key entry ∈ accesses := by
  induction accesses generalizing q with
  | nil => exact .inl h
  | cons a accesses ih =>
    rcases ih h with hmem | hlater
    · cases a with
      | get now other => exact .inl hmem
      | put other new =>
        rw [lastPuts] at hmem
        split at hmem
        · exact .inl hmem
        · rcases List.mem_append.mp hmem with hold | hnew
          · exact .inl (List.mem_filter.mp hold).1
          · cases List.mem_singleton.mp hnew
            exact .inr (List.mem_cons_self ..)
    · exact .inr (List.mem_cons_of_mem _ hlater)

end MemoryCache

namespace SharedCache

open MemoryCache (Access lastPuts)

variable {s d : SharedCache}

/-! ## Accesses -/

/-- What comes back from an access: nothing if it breaks off, and else a fault or what was found. To
a new entry there is nothing to be found. -/
abbrev Reply := Option (Except Fault (Option Entry))

/-- The reply to an access, and the cache after it. -/
def access (s : SharedCache) : Access → Reply × SharedCache
  | .get now key => s.get now key
  | .put key entry => (some ((s.put key entry).1.map fun _ => none), (s.put key entry).2)

/-- The same cache, with its entries in another order. -/
structure Alike (s d : SharedCache) : Prop where
  cache : MemoryCache.Alike s.cache d.cache
  isBroken : d.isBroken = s.isBroken

/-- From one cache to another by accesses with these replies, with the entries in any order before
each access. -/
inductive Reaches : SharedCache → List Access → List Reply → SharedCache → Prop
  | done {s d : SharedCache} (h : Alike s d) : Reaches s [] [] d
  | access {s b d : SharedCache} {accesses : List Access} {replies : List Reply}
      (a : Access) (h : Alike s b) (rest : Reaches (b.access a).2 accesses replies d) :
      Reaches s (a :: accesses) ((b.access a).1 :: replies) d

/-- What comes back from behind a broken lock. Whether an entry is too heavy is seen without it. -/
def refusal (maxWeight : Nat) : Access → Reply
  | .get _ _ => some (.error lockBroken)
  | .put _ entry => if maxWeight < entry.weight then some (.ok none) else some (.error lockBroken)

/-! ## One access -/

section

variable {now : Instant} {key : String} {entry : Entry}

theorem get_of_told (hwhole : s.isBroken = false) (htold : s.cache.tellsEnd key = true) :
    s.get now key = (some (.ok (s.cache.get now key).1), ⟨(s.cache.get now key).2, false⟩) := by
  simp [get, hwhole, htold]

theorem get_of_untold (hwhole : s.isBroken = false) (huntold : s.cache.tellsEnd key = false) :
    s.get now key = (none, ⟨s.cache, true⟩) := by
  simp [get, hwhole, huntold]

theorem get_of_broken (hbroken : s.isBroken = true) :
    s.get now key = (some (.error lockBroken), s) :=
  if_pos hbroken

/-- What is too heavy is turned away by the cache as well as by its lock. -/
theorem put_of_whole (hwhole : s.isBroken = false) :
    s.put key entry = (.ok (), ⟨s.cache.put key entry, false⟩) := by
  obtain ⟨c, broken⟩ := s
  cases hwhole
  rcases Nat.lt_or_ge c.maxWeight entry.weight with hheavy | hlight
  · simp [put, hheavy, MemoryCache.put_of_heavy hheavy]
  · simp [put, Nat.not_lt.mpr hlight]

theorem put_of_broken (hbroken : s.isBroken = true) : s.put key entry =
    (if s.cache.maxWeight < entry.weight then .ok () else .error lockBroken, s) := by
  by_cases hheavy : s.cache.maxWeight < entry.weight
  · simp [put, hheavy]
  · simp [put, hheavy, hbroken]

end

/-- **Behind a whole lock** an access is one of the cache, if it gets to its end. -/
theorem access_of_told (hwhole : s.isBroken = false) (hs : s.cache.Accounted) {a : Access}
    (htold : s.cache.Tells a) :
    s.access a = (some (.ok (s.cache.access a).1), ⟨(s.cache.access a).2, false⟩) := by
  cases a with
  | get now key => exact get_of_told hwhole (hs.tellsEnd_iff.mpr htold)
  | put key entry =>
    rw [access, put_of_whole hwhole]
    rfl

/-- **Who asks for an entry without an end** breaks off, and the lock is broken. -/
theorem access_of_untold (hwhole : s.isBroken = false) (hs : s.cache.Accounted) {now : Instant}
    {key : String} {entry : Entry} (hmem : (key, entry) ∈ s.cache.queue)
    (huntold : entry.tellsEnd s.cache.lifetime = false) :
    s.access (.get now key) = (none, ⟨s.cache, true⟩) := by
  apply get_of_untold hwhole
  rw [← Bool.not_eq_true]
  intro htold
  rw [hs.tellsEnd_iff.mp htold entry hmem] at huntold
  cases huntold

/-- **Behind a broken lock** nothing changes. -/
theorem access_of_broken (hbroken : s.isBroken = true) (a : Access) :
    s.access a = (refusal s.cache.maxWeight a, s) := by
  cases a with
  | get now key => exact get_of_broken hbroken
  | put key entry =>
    rw [access, put_of_broken hbroken, refusal]
    by_cases hheavy : s.cache.maxWeight < entry.weight
    · simp only [if_pos hheavy, Except.map]
    · simp only [if_neg hheavy, Except.map]

/-- These are all the cases there are. -/
theorem tells_or_exists_untold (c : MemoryCache) (a : Access) : c.Tells a ∨
    ∃ now key entry, a = .get now key ∧ (key, entry) ∈ c.queue ∧
      entry.tellsEnd c.lifetime = false := by
  cases a with
  | put key entry => exact .inl trivial
  | get now key =>
    by_cases htold : c.Tells (.get now key)
    · exact .inl htold
    · simp only [MemoryCache.Tells, not_forall, Bool.not_eq_true] at htold
      obtain ⟨entry, hmem, huntold⟩ := htold
      exact .inr ⟨now, key, entry, rfl, hmem, huntold⟩

/-! ## Any accesses -/

theorem Reaches.of_broken {accesses : List Access} {replies : List Reply}
    (h : Reaches s accesses replies d) (hbroken : s.isBroken = true) :
    replies = accesses.map (refusal s.cache.maxWeight) ∧ Alike s d := by
  induction h with
  | done hmoved => exact ⟨rfl, hmoved⟩
  | @access s b d accesses replies a hmoved rest ih =>
    have hb : b.isBroken = true := hmoved.isBroken.trans hbroken
    rw [access_of_broken hb] at rest ih ⊢
    obtain ⟨hreplies, hend⟩ := ih hb
    rw [hmoved.cache.maxWeight] at hreplies ⊢
    exact ⟨by rw [hreplies, List.map_cons], hmoved.cache.trans hend.cache,
      hend.isBroken.trans hmoved.isBroken⟩

/-- **The history of a cache**, from one whose lock was whole: accesses to the cache behind it, and
after them perhaps one that broke off, of an entry without an end, and refusals. -/
inductive History (c : MemoryCache) : List Access → List Reply → SharedCache → Prop
  | whole {accesses : List Access} {answers : List (Option Entry)} {d : MemoryCache}
      (h : MemoryCache.Reaches c accesses answers d) :
      History c accesses (answers.map fun found => some (.ok found)) ⟨d, false⟩
  | broken {before after : List Access} {answers : List (Option Entry)} {d : MemoryCache}
      {now : Instant} {key : String} {entry : Entry}
      (h : MemoryCache.Reaches c before answers d) (hmem : (key, entry) ∈ d.queue)
      (huntold : entry.tellsEnd d.lifetime = false) :
      History c (before ++ .get now key :: after)
        ((answers.map fun found => some (.ok found)) ++
          none :: after.map (refusal d.maxWeight)) ⟨d, true⟩

/-- One more access at the front. -/
theorem History.cons {c b : MemoryCache} {a : Access} {accesses : List Access}
    {replies : List Reply} (hmoved : MemoryCache.Alike c b)
    (h : History (b.access a).2 accesses replies d) :
    History c (a :: accesses) (some (.ok (b.access a).1) :: replies) d := by
  cases h with
  | whole h => exact .whole (.access a hmoved h)
  | broken h hmem huntold => exact .broken (.access a hmoved h) hmem huntold

/-- **Every run is a history.** An access whose end can be told goes on with the history of the
cache. The first one whose end cannot be told breaks the lock, and no access after it changes
anything. -/
theorem Reaches.history {accesses : List Access} {replies : List Reply}
    (h : Reaches s accesses replies d) (hwhole : s.isBroken = false) (hs : s.cache.Accounted) :
    History s.cache accesses replies d := by
  induction h with
  | @done s d hmoved =>
    obtain ⟨c, broken⟩ := d
    cases hmoved.isBroken.trans hwhole
    exact .whole (.done hmoved.cache)
  | @access s b d accesses replies a hmoved rest ih =>
    have hb : b.isBroken = false := hmoved.isBroken.trans hwhole
    have haccounted : b.cache.Accounted := hmoved.cache.accounted hs
    rcases tells_or_exists_untold b.cache a with htold | ⟨now, key, entry, rfl, hmem, huntold⟩
    · rw [access_of_told hb haccounted htold] at rest ih ⊢
      exact (ih rfl (haccounted.access a)).cons hmoved.cache
    · -- The lock breaks here, and what follows finds it broken.
      rw [access_of_untold hb haccounted hmem huntold] at rest ⊢
      obtain ⟨rfl, hend⟩ := rest.of_broken rfl
      obtain ⟨c, broken⟩ := d
      cases hend.isBroken
      have hqueue : c.queue = b.cache.queue := hend.cache.queue haccounted
      have hbefore : MemoryCache.Reaches s.cache [] [] c := .done (hmoved.cache.trans hend.cache)
      rw [← hqueue] at hmem
      rw [← hend.cache.lifetime] at huntold
      rw [← hend.cache.maxWeight]
      exact .broken hbefore hmem huntold

/-! ## The order of the table -/

theorem Alike.access (h : Alike s d) (hs : s.cache.Accounted) (a : Access) :
    (d.access a).1 = (s.access a).1 ∧ Alike (s.access a).2 (d.access a).2 := by
  have hd : d.cache.Accounted := h.cache.accounted hs
  -- A broken lock refuses in both alike, and what is told is answered as by the caches alone. The
  -- end that cannot be told is that of one entry, which both caches hold.
  cases hbroken : s.isBroken with
  | true =>
    rw [access_of_broken hbroken, access_of_broken (h.isBroken.trans hbroken),
      h.cache.maxWeight]
    exact ⟨rfl, h⟩
  | false =>
    have hwhole : d.isBroken = false := h.isBroken.trans hbroken
    have hqueue : d.cache.queue = s.cache.queue := h.cache.queue hs
    rcases tells_or_exists_untold s.cache a with htold | ⟨now, key, entry, rfl, hmem, huntold⟩
    · have htold' : d.cache.Tells a := by
        cases a with
        | put key entry => trivial
        | get now key =>
          rw [MemoryCache.Tells, hqueue, h.cache.lifetime]
          exact htold
      obtain ⟨hanswer, hafter⟩ := h.cache.access hs a
      rw [access_of_told hbroken hs htold, access_of_told hwhole hd htold', hanswer]
      exact ⟨rfl, hafter, rfl⟩
    · rw [access_of_untold hbroken hs hmem huntold,
        access_of_untold hwhole hd (hqueue ▸ hmem) (h.cache.lifetime ▸ huntold)]
      exact ⟨rfl, h.cache, rfl⟩

theorem accounted_access (hs : s.cache.Accounted) (a : Access) :
    (s.access a).2.cache.Accounted := by
  cases hbroken : s.isBroken with
  | true => rwa [access_of_broken hbroken]
  | false =>
    rcases tells_or_exists_untold s.cache a with htold | ⟨now, key, entry, rfl, hmem, huntold⟩
    · rw [access_of_told hbroken hs htold]
      exact hs.access a
    · rwa [access_of_untold hbroken hs hmem huntold]

/-- **Two caches that are asked the same** reply the same and end with the same entries. They may
hold them in tables of different orders, which is all that an access leaves open. -/
theorem Reaches.alike {accesses : List Access} {replies : List Reply}
    (h : Reaches s accesses replies d) (hs : s.cache.Accounted) :
    ∀ {s' : SharedCache} {replies' : List Reply} {d' : SharedCache}, Alike s s' →
      Reaches s' accesses replies' d' → replies' = replies ∧ Alike d d' := by
  induction h with
  | done hmoved =>
    intro s' replies' d' hsame h'
    cases h' with
    | done hmoved' =>
      exact ⟨rfl, hmoved.cache.symm.trans (hsame.cache.trans hmoved'.cache), by
        rw [hmoved'.isBroken, hsame.isBroken, hmoved.isBroken]⟩
  | access a hmoved rest ih =>
    intro s' replies' d' hsame h'
    cases h' with
    | access _ hmoved' rest' =>
      have hthere := hmoved.cache.accounted hs
      have hboth : Alike _ _ := ⟨hmoved.cache.symm.trans (hsame.cache.trans hmoved'.cache), by
        rw [hmoved'.isBroken, hsame.isBroken, hmoved.isBroken]⟩
      obtain ⟨hreply, hafter⟩ := hboth.access hthere a
      obtain ⟨hreplies, hend⟩ := ih (accounted_access hthere a) hafter rest'
      exact ⟨by rw [hreply, hreplies], hend⟩

/-! ## First in, first out, behind a lock -/

/-- **What a cache does next, told of its queue.** The lock is whole and the end of what is asked for
can be told, or it cannot, or the lock is broken. -/
structure FirstInFirstOut (s : SharedCache) : Prop where
  /-- What lies behind the lock is a queue. -/
  queue : s.cache.FirstInFirstOut
  access (hwhole : s.isBroken = false) (a : Access) (htold : s.cache.Tells a) :
    s.access a = (some (.ok (s.cache.access a).1), ⟨(s.cache.access a).2, false⟩)
  breaks (hwhole : s.isBroken = false) (now : Instant) (key : String) (entry : Entry)
    (hmem : (key, entry) ∈ s.cache.queue) (huntold : entry.tellsEnd s.cache.lifetime = false) :
    s.access (.get now key) = (none, ⟨s.cache, true⟩)
  refuses (hbroken : s.isBroken = true) (a : Access) :
    s.access a = (refusal s.cache.maxWeight a, s)

theorem firstInFirstOut (hs : s.cache.Accounted) : s.FirstInFirstOut where
  queue := hs.firstInFirstOut
  access hwhole _ htold := access_of_told hwhole hs htold
  breaks hwhole _ _ _ hmem huntold := access_of_untold hwhole hs hmem huntold
  refuses hbroken a := access_of_broken hbroken a

/-- Behind the lock lies what accesses at the front have left. They are all of them if the lock is
whole, and else the next one asked for what one of them had put. -/
theorem History.exists_reaches {c : MemoryCache} {accesses : List Access} {replies : List Reply}
    (h : History c accesses replies s) : ∃ before answers, before <+: accesses ∧
      MemoryCache.Reaches c before answers s.cache ∧ (s.isBroken = false → before = accesses) ∧
      (s.isBroken = true → ∃ key entry, (key, entry) ∈ s.cache.queue ∧
        entry.tellsEnd s.cache.lifetime = false) := by
  cases h with
  | whole h => exact ⟨_, _, List.prefix_refl _, h, fun _ => rfl, nofun⟩
  | broken h hmem huntold =>
    exact ⟨_, _, List.prefix_append .., h, nofun, fun _ => ⟨_, _, hmem, huntold⟩⟩

/-- **A queue until somebody breaks off.** Any cache that is reached has a history, which ends with a
whole lock or with a broken one. Its entries lie in the order of the last puts before the lock broke,
and what it does next is what `FirstInFirstOut` says. The lock breaks only for an entry that was put
and whose end cannot be told. In which order the table lies is not seen by anybody. -/
theorem queue_until_broken {maxWeight lifetime : Nat} {accesses : List Access}
    {replies : List Reply} {s : SharedCache}
    (h : Reaches (empty maxWeight lifetime) accesses replies s) :
    s.cache.maxWeight = maxWeight ∧ s.cache.lifetime = lifetime ∧ s.FirstInFirstOut ∧
      History (.empty maxWeight lifetime) accesses replies s ∧
      (∃ before, before <+: accesses ∧ (s.isBroken = false → before = accesses) ∧
        s.cache.queue.Sublist (before.foldl (lastPuts maxWeight) [])) ∧
      ((∀ key entry, .put key entry ∈ accesses → entry.tellsEnd lifetime = true) →
        s.isBroken = false) ∧
      ∀ replies' s', Reaches (empty maxWeight lifetime) accesses replies' s' →
        replies' = replies ∧ s'.isBroken = s.isBroken ∧ s'.cache.queue = s.cache.queue := by
  have hempty := MemoryCache.accounted_empty maxWeight lifetime
  have hhistory := h.history rfl hempty
  obtain ⟨before, answers, hbefore, hreached, hall, huntold⟩ := hhistory.exists_reaches
  obtain ⟨haccounted, -⟩ := hreached.accounted hempty
  obtain ⟨hmax, hlifetime, -, horder, -⟩ := MemoryCache.first_in_first_out hreached
  refine ⟨hmax, hlifetime, firstInFirstOut haccounted, hhistory, ⟨before, hbefore, hall, horder⟩,
    fun htold => ?_, fun replies' s' h' => ?_⟩
  · -- What breaks the lock was put before.
    rw [← Bool.not_eq_true]
    intro hbroken
    obtain ⟨key, entry, hmem, huntold⟩ := huntold hbroken
    rcases MemoryCache.put_mem_of_mem_lastPuts (horder.subset hmem) with hnone | hput
    · cases hnone
    · rw [hlifetime, htold key entry (hbefore.subset hput)] at huntold
      cases huntold
  · have hsame : Alike (empty maxWeight lifetime) (empty maxWeight lifetime) := ⟨.refl, rfl⟩
    obtain ⟨hreplies, hend⟩ := h.alike hempty hsame h'
    exact ⟨hreplies, hend.isBroken, hend.cache.queue haccounted⟩

/-! ### A bowl behind a lock -/

open MemoryCache (pebble pebbles full bowl)

/-- The accesses of `reaches_bowl`, with a lock that stays whole. -/
theorem reaches_bowl :
    Reaches (empty 20 60) pebbles
      [some (.ok none), some (.ok none), some (.ok none), some (.ok none), some (.ok none),
        some (.ok (some pebble)), some (.ok none)] ⟨bowl, false⟩ := by
  refine .access (b := empty 20 60) _ ⟨.refl, rfl⟩ ?_
  refine .access (b := ⟨⟨20, 60, [("a", ⟨pebble, 9, 0⟩)], 9, 1⟩, false⟩) _ ⟨.refl, rfl⟩ ?_
  refine .access (b := ⟨⟨20, 60, [("a", ⟨pebble, 9, 0⟩), ("b", ⟨pebble, 9, 1⟩)], 18, 2⟩, false⟩) _
    ⟨⟨rfl, rfl, .swap .., rfl, rfl⟩, rfl⟩ ?_
  refine .access (b := ⟨⟨20, 60, [("a", ⟨pebble, 9, 2⟩), ("b", ⟨pebble, 9, 1⟩)], 18, 3⟩, false⟩) _
    ⟨.refl, rfl⟩ ?_
  refine .access (b := ⟨full, false⟩) _ ⟨.refl, rfl⟩ ?_
  refine .access (b := ⟨full, false⟩) _ ⟨.refl, rfl⟩ ?_
  refine .access (b := ⟨full, false⟩) _ ⟨.refl, rfl⟩ ?_
  exact .done ⟨.refl, rfl⟩

theorem queue_until_broken_bowl :
    Reaches (empty 20 60) pebbles
      [some (.ok none), some (.ok none), some (.ok none), some (.ok none), some (.ok none),
        some (.ok (some pebble)), some (.ok none)] ⟨bowl, false⟩ ∧
      FirstInFirstOut ⟨bowl, false⟩ :=
  ⟨reaches_bowl, (queue_until_broken reaches_bowl).2.2.1⟩

/-- A lifetime of ten million million seconds, which leads from any time that a clock shows beyond
the calendar. -/
def ages : Nat := 10000000000000

/-- A bowl with one pebble in it, whose lock is broken. -/
def cracked : SharedCache := ⟨⟨20, ages, [("a", ⟨pebble, 9, 0⟩)], 9, 1⟩, true⟩

/-- **A pebble breaks the lock.** It is put without any fault and fits well. Asking for it breaks
off, and afterwards another one that fits as well is refused and does not lie there. -/
theorem pebble_breaks_lock :
    Reaches (empty 20 ages) [.put "a" pebble, .get ⟨10, 0⟩ "a", .put "b" pebble, .get ⟨10, 0⟩ "b"]
        [some (.ok none), none, some (.error lockBroken), some (.error lockBroken)] cracked ∧
      pebble.weight ≤ 20 ∧ (cracked.access (.put "b" pebble)).2.cache.queue = [("a", pebble)] := by
  refine ⟨?_, by decide, ?_⟩
  · refine .access (b := empty 20 ages) _ ⟨.refl, rfl⟩ ?_
    refine .access (b := { cracked with isBroken := false }) _ ⟨.refl, rfl⟩ ?_
    refine .access (b := cracked) _ ⟨.refl, rfl⟩ ?_
    refine .access (b := cracked) _ ⟨.refl, rfl⟩ ?_
    exact .done ⟨.refl, rfl⟩
  · rw [access_of_broken rfl]
    simp [cracked, MemoryCache.queue, MemoryCache.aged]

end SharedCache

end CachedRun
