import CachedRun.Proofs.Store.Accounting
import Mathlib.Data.List.Sort

/-!
# The queue — which entries the cache in memory keeps

The cache is a table with numbered entries, and it looks for the lowest number when it needs room.
Read in the order of the numbers it is a queue: **a new entry goes to the end, an entry that is put
again leaves its old place, and as few as possible go from the front** (`first_in_first_out`). The
queue is all that the answers depend on. In which order the table lies is not seen by any access, so
two caches that were asked the same have answered the same and hold the same queue.

All of this is the cache behind its lock, in the hands of somebody who gets to the end of each
access. What becomes of the queue when the lock is lost is said in `Proofs/Store/Lock.lean`.

The numbers stay out of the statement. What they are good for is that the queue of a cache has one
order only (`aged_eq`), and each operation is followed on the list in that order.
-/

set_option autoImplicit false

namespace CachedRun.MemoryCache

variable {c d : MemoryCache} {key : String} {stored : Stored}

/-! ## The entries by age -/

/-- The entries of a cache in the order of their numbers. -/
def aged (c : MemoryCache) : List (String × Stored) :=
  c.entries.mergeSort fun a b => a.2.sequence ≤ b.2.sequence

theorem aged_perm (c : MemoryCache) : c.aged.Perm c.entries := List.mergeSort_perm ..

theorem Accounted.pairwise_aged (h : c.Accounted) :
    c.aged.Pairwise fun a b => a.2.sequence < b.2.sequence := by
  have hsorted : c.aged.Pairwise fun a b => decide (a.2.sequence ≤ b.2.sequence) = true := by
    refine List.pairwise_mergeSort ?_ ?_ c.entries
    · intro a b e hab hbe
      simp only [decide_eq_true_eq] at *
      omega
    · intro a b
      simp only [Bool.or_eq_true, decide_eq_true_eq]
      omega
  have hnodup := ((c.aged_perm.map fun e => e.2.sequence).nodup_iff.mpr h.sequences)
  rw [List.Nodup, List.pairwise_map] at hnodup
  refine (hsorted.and hnodup).imp fun {a b} hab => ?_
  exact Nat.lt_of_le_of_ne (of_decide_eq_true hab.1) hab.2

/-- **There is one order of the entries by their numbers.** -/
theorem Accounted.aged_eq (h : c.Accounted) {l : List (String × Stored)}
    (hperm : l.Perm c.entries) (hl : l.Pairwise fun a b => a.2.sequence < b.2.sequence) :
    c.aged = l :=
  (c.aged_perm.trans hperm.symm).eq_of_pairwise
    (fun _ _ _ _ hab hba => absurd hba (Nat.lt_asymm hab)) h.pairwise_aged hl

theorem Accounted.aged_drop (h : c.Accounted) :
    (c.drop key).aged = c.aged.filter fun e => e.1 ≠ key := by
  refine h.drop.aged_eq ?_ (h.pairwise_aged.filter _)
  rw [entries_drop]
  exact c.aged_perm.filter _

theorem Accounted.oldest?_eq_head? (h : c.Accounted) :
    c.oldest? = c.aged.head?.map Prod.fst := by
  rcases oldest?_eq c with ⟨hempty, hnone⟩ | ⟨e, he, holdest, hleast⟩
  · have hnil : c.aged = [] := (hempty ▸ c.aged_perm).eq_nil
    rw [hnone, hnil]
    rfl
  · -- Nothing stands before the entry of the lowest number.
    have hmem := c.aged_perm.mem_iff.mpr he
    have hsorted := h.pairwise_aged
    cases haged : c.aged with
    | nil =>
      rw [haged] at hmem
      cases hmem
    | cons a l =>
      rw [haged] at hmem hsorted
      have ha := c.aged_perm.mem_iff.mp (haged ▸ List.mem_cons_self ..)
      have hle := hleast a ha
      rcases List.mem_cons.mp hmem with rfl | hlater
      · exact holdest
      · have hlt := (List.pairwise_cons.mp hsorted).1 e hlater
        omega

/-- To drop the oldest entry takes the first one away. -/
theorem Accounted.aged_drop_head (h : c.Accounted) {e : String × Stored}
    {rest : List (String × Stored)} (haged : c.aged = e :: rest) : (c.drop e.1).aged = rest := by
  have hkeys := (c.aged_perm.map Prod.fst).nodup_iff.mpr h.keys
  rw [haged, List.map_cons, List.nodup_cons] at hkeys
  rw [h.aged_drop, haged, List.filter_cons_of_neg (by simp), List.filter_eq_self]
  intro d hd
  exact decide_eq_true fun heq => hkeys.1 (heq ▸ List.mem_map_of_mem hd)

/-- **Room is made at the front**, and no more of it than is needed: `n` is the shortest number of
entries in front without which the rest and the weight fit. By induction on the rounds, since each
drops the head of the queue, and the rounds after it see the tail as their whole queue. With a round
for every entry the rounds do not run out before there is room. -/
theorem Accounted.exists_aged_makeRoom (h : c.Accounted) {weight fuel : Nat}
    (hfuel : c.entries.length ≤ fuel) :
    ∃ n, (MemoryCache.makeRoom weight fuel c).aged = c.aged.drop n ∧
      ∀ m < n, c.maxWeight < total ((c.aged.drop m).map fun e => e.2.weight) + weight := by
  induction fuel generalizing c with
  | zero => exact ⟨0, rfl, nofun⟩
  | succ fuel ih =>
    rw [MemoryCache.makeRoom, h.oldest?_eq_head?]
    split
    case isFalse => exact ⟨0, rfl, nofun⟩
    case isTrue hover =>
      cases haged : c.aged with
      | nil => exact ⟨0, haged, nofun⟩
      | cons e rest =>
        have he := c.aged_perm.mem_iff.mp (haged ▸ List.mem_cons_self ..)
        have hshorter := length_drop_oldest he
        obtain ⟨n, hroom, hneeded⟩ := ih h.drop (by omega) (c := c.drop e.1)
        -- The round has dropped the head, so the rounds after it drop from the tail.
        rw [h.aged_drop_head haged] at hroom hneeded
        refine ⟨n + 1, hroom, fun m hm => ?_⟩
        -- With none dropped it was too much, as this round has found; with more the later rounds
        -- have.
        cases m with
        | zero =>
          rw [List.drop_zero, ← haged, total_perm (c.aged_perm.map _), ← h.counted]
          exact hover
        | succ m =>
          have hmax : (c.drop e.1).maxWeight = c.maxWeight := remains_drop.maxWeight
          rw [← hmax]
          exact hneeded m (by omega)

/-- A new entry comes last. -/
theorem Accounted.aged_add (h : c.Accounted) {entry : Entry}
    (hnew : key ∉ c.entries.map Prod.fst)
    (hfits : c.totalWeight + entry.weight ≤ c.maxWeight) :
    (c.add key entry).aged = c.aged ++ [(key, ⟨entry, entry.weight, c.nextSequence⟩)] := by
  refine (h.add hnew hfits).aged_eq ?_ ?_
  · exact (List.perm_append_singleton _ _).trans (c.aged_perm.cons _)
  · refine List.pairwise_append.mpr ⟨h.pairwise_aged, List.pairwise_singleton .., ?_⟩
    intro e he a ha
    rw [List.mem_singleton.mp ha]
    exact h.below e (c.aged_perm.mem_iff.mp he)

/-! ## The queue -/

/-- The keys and entries of a cache in the order of their numbers. -/
def queue (c : MemoryCache) : List (String × Entry) := c.aged.map fun e => (e.1, e.2.entry)

/-- The weight of a queue. -/
def load (q : List (String × Entry)) : Nat := total (q.map fun e => e.2.weight)

theorem Accounted.load_map (h : c.Accounted) {l : List (String × Stored)}
    (hl : ∀ e ∈ l, e ∈ c.entries) :
    load (l.map fun e => (e.1, e.2.entry)) = total (l.map fun e => e.2.weight) := by
  rw [load, List.map_map]
  exact congrArg total (List.map_congr_left fun e he => (h.weights e (hl e he)).symm)

theorem Accounted.queue_drop (h : c.Accounted) :
    (c.drop key).queue = c.queue.filter fun e => e.1 ≠ key := by
  rw [queue, h.aged_drop, queue, List.filter_map]
  rfl

theorem Accounted.load_queue (h : c.Accounted) : load c.queue = c.totalWeight := by
  rw [queue, h.load_map fun e he => c.aged_perm.mem_iff.mp he, total_perm (c.aged_perm.map _),
    h.counted]

/-- **To put an entry** appends it to the others, of which as few as possible go. -/
theorem Accounted.exists_queue_put (h : c.Accounted) {entry : Entry}
    (hlight : entry.weight ≤ c.maxWeight) :
    ∃ n, (c.put key entry).queue =
        (c.queue.filter fun e => e.1 ≠ key).drop n ++ [(key, entry)] ∧
      load ((c.queue.filter fun e => e.1 ≠ key).drop n) + entry.weight ≤ c.maxWeight ∧
      ∀ m < n, c.maxWeight <
        load ((c.queue.filter fun e => e.1 ≠ key).drop m) + entry.weight := by
  have hmax : (c.drop key).maxWeight = c.maxWeight := remains_drop.maxWeight
  have hcleared : Remains c (c.cleared key entry.weight) := remains_cleared
  have hroom : (c.cleared key entry.weight).totalWeight + entry.weight ≤ c.maxWeight :=
    cleared_fits h hlight
  have hdropped : (c.drop key).Accounted := h.drop
  -- Room is made among the other entries, from the front of their queue.
  obtain ⟨n, haged, hneeded⟩ :=
    @Accounted.exists_aged_makeRoom _ hdropped entry.weight _ (Nat.le_refl _)
  have hqueue : (c.cleared key entry.weight).queue = (c.drop key).queue.drop n := by
    rw [queue, MemoryCache.cleared, haged, queue, List.map_drop]
  -- Then the new entry is appended, as the youngest of all.
  have hadded : (c.put key entry).queue = (c.cleared key entry.weight).queue ++ [(key, entry)] := by
    rw [put_of_light hlight, queue,
      h.cleared.aged_add not_mem_cleared (by rwa [hcleared.maxWeight]), List.map_append]
    rfl
  rw [← h.queue_drop]
  refine ⟨n, hadded.trans (by rw [hqueue]), ?_, fun m hm => ?_⟩
  · rw [← hqueue, h.cleared.load_queue]
    exact hroom
  · rw [queue, ← List.map_drop, hdropped.load_map, ← hmax]
    · exact hneeded m hm
    · exact fun e he => (c.drop key).aged_perm.mem_iff.mp (List.mem_of_mem_drop he)

/-! ## Asking -/

theorem Accounted.find?_eq_some_iff (h : c.Accounted) :
    c.find? key = some stored ↔ (key, stored) ∈ c.entries := by
  refine ⟨mem_of_find?, fun hmem => ?_⟩
  have hperm := perm_cons_filter h.keys hmem
  cases hfind : c.find? key with
  | none =>
    rw [find?, Option.map_eq_none_iff, List.find?_eq_none] at hfind
    exact absurd rfl (of_decide_eq_false (Bool.eq_false_iff.mpr (hfind _ hmem)))
  | some other =>
    rcases List.mem_cons.mp (hperm.mem_iff.mp (mem_of_find? hfind)) with heq | hmem
    · exact congrArg some (Prod.mk.inj heq).2
    · exact absurd rfl (of_decide_eq_true (List.mem_filter.mp hmem).2)

theorem Accounted.mem_queue_iff (h : c.Accounted) {entry : Entry} :
    (key, entry) ∈ c.queue ↔ ∃ stored, c.find? key = some stored ∧ stored.entry = entry := by
  rw [queue, List.mem_map]
  constructor
  · rintro ⟨⟨k, s⟩, he, heq⟩
    obtain ⟨rfl, rfl⟩ := Prod.mk.inj heq
    exact ⟨s, h.find?_eq_some_iff.mpr (c.aged_perm.mem_iff.mp he), rfl⟩
  · rintro ⟨s, hfind, rfl⟩
    exact ⟨(key, s), c.aged_perm.mem_iff.mpr (mem_of_find? hfind), rfl⟩

/-! ## The order of the table -/

theorem Alike.refl : Alike c c := ⟨rfl, rfl, .refl _, rfl, rfl⟩

theorem Alike.symm (h : Alike c d) : Alike d c :=
  ⟨h.maxWeight.symm, h.lifetime.symm, h.entries.symm, h.totalWeight.symm, h.nextSequence.symm⟩

theorem Alike.trans {b : MemoryCache} (h : Alike b c) (h' : Alike c d) : Alike b d :=
  ⟨h'.maxWeight.trans h.maxWeight, h'.lifetime.trans h.lifetime, h'.entries.trans h.entries,
    h'.totalWeight.trans h.totalWeight, h'.nextSequence.trans h.nextSequence⟩

section Alike

variable (h : Alike c d) (hc : c.Accounted)
include h hc

theorem Alike.find? : d.find? key = c.find? key := by
  refine Option.ext fun stored => ?_
  rw [(h.accounted hc).find?_eq_some_iff, hc.find?_eq_some_iff, h.entries.mem_iff]

theorem Alike.aged : d.aged = c.aged :=
  ((h.accounted hc).aged_eq (c.aged_perm.trans h.entries.symm) hc.pairwise_aged)

theorem Alike.queue : d.queue = c.queue := by
  rw [MemoryCache.queue, h.aged hc, MemoryCache.queue]

theorem Alike.drop : Alike (c.drop key) (d.drop key) := by
  have hfind : d.find? key = c.find? key := h.find? hc
  unfold MemoryCache.drop
  rw [hfind]
  cases c.find? key with
  | none => exact h
  | some stored =>
    exact ⟨h.maxWeight, h.lifetime, h.entries.filter _,
      congrArg (· - stored.weight) h.totalWeight, h.nextSequence⟩

omit h hc in
theorem Alike.makeRoom (h : Alike c d) (hc : c.Accounted) {weight fuel : Nat} :
    Alike (makeRoom weight fuel c) (makeRoom weight fuel d) := by
  induction fuel generalizing c d with
  | zero => exact h
  | succ fuel ih =>
    rw [MemoryCache.makeRoom, MemoryCache.makeRoom, (h.accounted hc).oldest?_eq_head?,
      hc.oldest?_eq_head?, h.aged hc, h.maxWeight, h.totalWeight]
    split
    · cases c.aged.head?.map Prod.fst with
      | none => exact h
      | some key => exact ih (h.drop hc) hc.drop
    · exact h

theorem Alike.put (entry : Entry) : Alike (c.put key entry) (d.put key entry) := by
  rcases Nat.lt_or_ge c.maxWeight entry.weight with hheavy | hlight
  · rw [put_of_heavy hheavy, put_of_heavy (h.maxWeight ▸ hheavy)]
    exact h
  · have hlength : (d.drop key).entries.length = (c.drop key).entries.length :=
      (h.drop hc).entries.length_eq
    have hroom : Alike (c.cleared key entry.weight) (d.cleared key entry.weight) := by
      rw [cleared, cleared, hlength]
      exact (h.drop hc).makeRoom hc.drop
    rw [put_of_light hlight, put_of_light (by rwa [h.maxWeight])]
    refine ⟨hroom.maxWeight, hroom.lifetime, ?_, congrArg (· + entry.weight) hroom.totalWeight,
      congrArg (· + 1) hroom.nextSequence⟩
    rw [add, add, hroom.nextSequence]
    exact hroom.entries.cons _

/-- **An access does not see the order** of the table. -/
theorem Alike.access (a : Access) :
    (d.access a).1 = (c.access a).1 ∧ Alike (c.access a).2 (d.access a).2 := by
  cases a with
  | put key entry => exact ⟨rfl, h.put hc entry⟩
  | get now key =>
    rw [MemoryCache.access, MemoryCache.access, get, get, h.find? hc, h.lifetime]
    cases c.find? key with
    | none => exact ⟨rfl, h⟩
    | some stored =>
      by_cases hexpired : stored.entry.isExpired c.lifetime now = true
      · simp only [hexpired, if_true]
        exact ⟨trivial, h.drop hc⟩
      · simp only [if_neg hexpired]
        exact ⟨trivial, h⟩

end Alike

/-- **Two caches that are asked the same** answer the same and end with the same entries. -/
theorem Reaches.alike {accesses : List Access} {answers : List (Option Entry)}
    (h : Reaches c accesses answers d) (hc : c.Accounted) :
    ∀ {c' : MemoryCache} {answers' : List (Option Entry)} {d' : MemoryCache}, Alike c c' →
      Reaches c' accesses answers' d' → answers' = answers ∧ Alike d d' := by
  induction h with
  | done hmoved =>
    intro c' answers' d' hsame h'
    cases h' with
    | done hmoved' => exact ⟨rfl, hmoved.symm.trans (hsame.trans hmoved')⟩
  | access a hmoved rest ih =>
    intro c' answers' d' hsame h'
    cases h' with
    | access _ hmoved' rest' =>
      have hthere := hmoved.accounted hc
      obtain ⟨hanswer, hafter⟩ := (hmoved.symm.trans (hsame.trans hmoved')).access hthere a
      obtain ⟨hanswers, hend⟩ := ih (hthere.access a) hafter rest'
      exact ⟨by rw [hanswer, hanswers], hend⟩

/-! ## First in, first out -/

/-- **What a cache does, told of its queue.** -/
structure FirstInFirstOut (c : MemoryCache) : Prop where
  /-- A new entry comes last. Of the others as few as possible go, from the front. -/
  put (key : String) (entry : Entry) (hlight : entry.weight ≤ c.maxWeight) :
    ∃ n, (c.put key entry).queue =
        (c.queue.filter fun e => e.1 ≠ key).drop n ++ [(key, entry)] ∧
      load ((c.queue.filter fun e => e.1 ≠ key).drop n) + entry.weight ≤ c.maxWeight ∧
      ∀ m < n, c.maxWeight <
        load ((c.queue.filter fun e => e.1 ≠ key).drop m) + entry.weight
  hit (now : Instant) (key : String) (entry : Entry) (hmem : (key, entry) ∈ c.queue)
    (hlive : entry.isExpired c.lifetime now = false) : c.get now key = (some entry, c)
  expired (now : Instant) (key : String) (entry : Entry) (hmem : (key, entry) ∈ c.queue)
    (hexpired : entry.isExpired c.lifetime now = true) : c.get now key = (none, c.drop key) ∧
      (c.drop key).queue = c.queue.filter fun e => e.1 ≠ key
  miss (now : Instant) (key : String) (hmiss : ∀ entry, (key, entry) ∉ c.queue) :
    c.get now key = (none, c)

theorem Accounted.firstInFirstOut (h : c.Accounted) : c.FirstInFirstOut where
  put _ _ := h.exists_queue_put
  hit now key entry hmem hlive := by
    obtain ⟨stored, hfind, rfl⟩ := h.mem_queue_iff.mp hmem
    simp [get, hfind, hlive]
  expired now key entry hmem hexpired := by
    obtain ⟨stored, hfind, rfl⟩ := h.mem_queue_iff.mp hmem
    exact ⟨by simp [get, hfind, hexpired], h.queue_drop⟩
  miss now key hmiss := by
    cases hfind : c.find? key with
    | none => simp [get, hfind]
    | some stored => exact absurd (h.mem_queue_iff.mpr ⟨stored, hfind, rfl⟩) (hmiss _)

/-- What was put last under each key, in the order of these puts, after one more access. What is too
heavy is not put. -/
def lastPuts (limit : Nat) (q : List (String × Entry)) : Access → List (String × Entry)
  | .get _ _ => q
  | .put key entry =>
    if limit < entry.weight then q else q.filter (fun e => e.1 ≠ key) ++ [(key, entry)]

/-- An access leaves the entries in the order of their last puts. -/
theorem Accounted.sublist_access (h : c.Accounted) {q : List (String × Entry)}
    (hq : c.queue.Sublist q) (a : Access) :
    (c.access a).2.queue.Sublist (lastPuts c.maxWeight q a) := by
  cases a with
  | get now key =>
    rw [MemoryCache.access, lastPuts]
    rcases @get_snd c key now with hsame | ⟨stored, -, -, hdropped⟩
    · rw [hsame]
      exact hq
    · rw [hdropped, h.queue_drop]
      exact List.filter_sublist.trans hq
  | put key entry =>
    rw [MemoryCache.access, lastPuts]
    split
    case isTrue hheavy =>
      rw [put_of_heavy hheavy]
      exact hq
    case isFalse hlight =>
      obtain ⟨n, hqueue, -⟩ := h.exists_queue_put (Nat.not_lt.mp hlight)
      rw [hqueue]
      exact ((List.drop_sublist n _).trans (hq.filter _)).append_right _

theorem Reaches.sublist_lastPuts {accesses : List Access} {answers : List (Option Entry)}
    (h : Reaches c accesses answers d) (hc : c.Accounted) {q : List (String × Entry)}
    (hq : c.queue.Sublist q) : d.queue.Sublist (accesses.foldl (lastPuts c.maxWeight) q) := by
  induction h generalizing q with
  | done hmoved => rwa [hmoved.queue hc]
  | access a hmoved rest ih =>
    have hthere := hmoved.accounted hc
    have hstep := hthere.sublist_access (by rwa [hmoved.queue hc]) a (q := q)
    have hrest := ih (hthere.access a) hstep
    rwa [(settings_access a).1, hmoved.maxWeight] at hrest

/-- **The cache in memory is a queue.** After any accesses it does with its queue what
`FirstInFirstOut` says, the queue is in the order of the last puts, and whoever asks the same of a
cache whose table is ordered in another way gets the same answers and the same queue. -/
theorem first_in_first_out {maxWeight lifetime : Nat} {accesses : List Access}
    {answers : List (Option Entry)} {c : MemoryCache}
    (h : Reaches (empty maxWeight lifetime) accesses answers c) :
    c.maxWeight = maxWeight ∧ c.lifetime = lifetime ∧ c.FirstInFirstOut ∧
      c.queue.Sublist (accesses.foldl (lastPuts maxWeight) []) ∧
      ∀ answers' c', Reaches (empty maxWeight lifetime) accesses answers' c' →
        answers' = answers ∧ c'.queue = c.queue := by
  have hempty := accounted_empty maxWeight lifetime
  obtain ⟨haccounted, hmax, hlifetime, -⟩ := h.accounted hempty
  refine ⟨hmax, hlifetime, haccounted.firstInFirstOut, ?_, fun answers' c' h' => ?_⟩
  · have hqueue : (empty maxWeight lifetime).queue = [] := by simp [queue, aged, empty]
    exact h.sublist_lastPuts hempty (hqueue ▸ List.nil_sublist _)
  · obtain ⟨hanswers, hsame⟩ := h.alike hempty .refl h'
    exact ⟨hanswers, hsame.queue haccounted⟩

end CachedRun.MemoryCache
