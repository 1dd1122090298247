import CachedRun.Proofs.Run.Names
import CachedRun.Proofs.Run.Results
import CachedRun.Proofs.Store.Lock

/-!
# Transparency — how far a cache changes nothing but the work

A cached process answers from its cache if it can. Nobody who looks at the outputs is to tell:
whatever calls came before, a call is to get the outputs, or the fault, that it would get from a
process without a cache. That is so **as long as the end of every lifetime can be told**
(`answers_eq_fresh`). A call that finds an entry without an end breaks off, and it leaves the lock of
the cache broken. The calls after it still ask, run the program and judge it, but what they cannot
store they do not hand out either. `fresh_until_broken` says that there is no other way for a cache
to be seen: all calls are answered as without one, up to the one that breaks off, if there is one.

The invariant is `Backed`: every entry of the cache is what some earlier call made, under the key of
that call and with its time. It does not speak of weights or ages, since an entry that goes away
leaves the rest as they were (`Proofs/Store/Memory.lean`). What makes the invariant useful is that
two calls of one key make the same outputs (`outputs_eq_of_key_eq`). The calls share a configuration,
so nothing that the key leaves out can differ between them but the generated names, and those the
runner ignores (`Proofs/Run/Names.lean`).
-/

set_option autoImplicit false

namespace CachedRun

open Key Result

/-! ## Calls -/

/-- A request to a process, with what surrounds it at that time. -/
structure Call where
  surroundings : Surroundings Id
  inputs : Inputs
  requested : List String
  /-- The texts that generated names are made of. -/
  unique : Nat → String
  /-- What the clock shows when the cache is read. -/
  readAt : Instant
  /-- What the clock shows when a result is stored. -/
  storedAt : Instant

/-- Surroundings without effects, among others that have some. -/
def Surroundings.lift {m : Type → Type} [Monad m] (s : Surroundings Id) : Surroundings m :=
  ⟨fun image => pure (s.imageId image), pure s.runnerVersion, s.serviceVersion⟩

/-- A cache in memory behind its lock, at a time. An access to it may break off. -/
def Cache.shared (now : Instant) : Cache (OptionT (StateM SharedCache)) where
  get key := OptionT.mk (modifyGet fun s => s.get now key)
  put key entry := modifyGet fun s => s.put key entry

/-- A cache that never has anything. -/
def Cache.absent : Cache Id := ⟨fun _ => .ok none, fun _ _ => .ok ()⟩

namespace Call

variable (p : CachedProcess) (runner : RunRequest → Except Fault RunOutput)

/-- The answer of a process with a cache in memory. -/
def answer (y : Call) : OptionT (StateM SharedCache) (Except Fault Answer) :=
  p.run ⟨y.surroundings.lift, Cache.shared y.readAt, fun r => pure (runner r),
    pure y.storedAt⟩ y.unique y.inputs y.requested

/-- What is seen of that answer: the outputs or a fault, or nothing if the call breaks off. Whoever
makes the next call finds the cache as this one has left it. -/
def served (y : Call) : StateM SharedCache (Option (Except Fault Outputs)) :=
  return (← (y.answer p runner).run).map fun answer => answer.map Answer.outputs

/-- The answer of a process without a cache. -/
def fresh (y : Call) : Except Fault Answer :=
  (p.run ⟨y.surroundings, Cache.absent, runner, y.storedAt⟩ y.unique y.inputs y.requested : Id _)

/-- The key of a call. -/
def key (y : Call) : Except Fault String :=
  (p.key y.surroundings y.inputs y.requested : Id _)

/-- The entry that a call stores. -/
def entry (y : Call) (outputs : Outputs) : Entry := ⟨p.configuration.id, y.storedAt, outputs⟩

/-- What is seen of a call behind a broken lock, of a cache for this weight. -/
def refused (maxWeight : Nat) (y : Call) : Except Fault Outputs :=
  ((y.fresh p runner).map Answer.outputs).bind fun outputs =>
    if maxWeight < (y.entry p outputs).weight then .ok outputs else .error SharedCache.lockBroken

/-- What a run for a call makes. -/
def outputs (y : Call) : Except Fault Outputs := do
  let r ← Run.assemble y.unique p.configuration y.inputs
    (Run.selected p.configuration y.requested)
  let o ← runner r
  Run.judge p.configuration o
  Run.collect (Run.selected p.configuration y.requested) o

/-- A runner without effects leaves nothing to do but to compute. -/
theorem execute_eq {m : Type → Type} [Monad m] [LawfulMonad m] (y : Call) (host : Host m)
    (hrun : ∀ r, host.run r = pure (runner r)) :
    p.execute host y.unique y.inputs y.requested = pure (y.outputs p runner) := by
  unfold CachedProcess.execute outputs
  dsimp only
  cases Run.assemble y.unique p.configuration y.inputs
      (Run.selected p.configuration y.requested) with
  | error fault => rfl
  | ok r =>
    simp only [hrun, pure_bind]
    cases h : runner r with
    | error fault => simp only [bind, Except.bind, h]
    | ok o => simp only [bind, Except.bind, h]

theorem key_lift {m : Type → Type} [Monad m] [LawfulMonad m] (y : Call) :
    p.key (y.surroundings.lift : Surroundings m) y.inputs y.requested = pure (y.key p) := by
  unfold key CachedProcess.key
  cases CachedProcess.check p.configuration y.inputs y.requested with
  | error fault => rfl
  | ok _ =>
    simp only [CachedProcess.uncheckedKey, Surroundings.environment, Surroundings.lift, pure_bind]
    cases h : y.surroundings.imageId p.configuration.image with
    | error fault =>
      simp only [pure_bind]
      rfl
    | ok imageId =>
      simp only [pure_bind]
      rfl

theorem fresh_eq (y : Call) :
    (y.fresh p runner).map Answer.outputs = (y.key p).bind fun _ => y.outputs p runner := by
  have hkey : p.key y.surroundings y.inputs y.requested = y.key p := rfl
  unfold fresh CachedProcess.run
  rw [hkey]
  cases y.key p with
  | error fault => rfl
  | ok key =>
    unfold CachedProcess.refresh
    simp only
    rw [execute_eq p runner y _ (fun _ => rfl)]
    cases y.outputs p runner with
    | error fault => rfl
    | ok outputs => rfl

/-- A computation that may break off, and another after it. -/
theorem run_bind_optionT {σ α β : Type} (x : OptionT (StateM σ) α) (f : α → OptionT (StateM σ) β)
    (s : σ) : (x >>= f).run.run s = match x.run.run s with
      | (none, s) => (none, s)
      | (some a, s) => (f a).run.run s := by
  rw [OptionT.run_bind, Option.elimM, StateT.run_bind]
  rcases x.run.run s with ⟨_ | a, s⟩ <;> rfl

/-- What a call does that has not found its entry. -/
theorem refresh_eq (y : Call) (key : String) (s : SharedCache) :
    (p.refresh ⟨y.surroundings.lift, Cache.shared y.readAt, fun r => pure (runner r),
        pure y.storedAt⟩ y.unique y.inputs y.requested key).run.run s =
      match y.outputs p runner with
      | .error fault => (some (.error fault), s)
      | .ok outputs =>
        (some ((s.put key (y.entry p outputs)).1.map fun _ => ⟨key, false, outputs⟩),
          (s.put key (y.entry p outputs)).2) := by
  unfold CachedProcess.refresh
  rw [execute_eq p runner y _ (fun _ => rfl), pure_bind]
  cases y.outputs p runner with
  | error fault => rfl
  | ok outputs =>
    have hput : ((Cache.shared y.readAt).put key (y.entry p outputs)).run.run s =
      (some (s.put key (y.entry p outputs)).1, (s.put key (y.entry p outputs)).2) := rfl
    simp only [pure_bind]
    change ((Cache.shared y.readAt).put key (y.entry p outputs) >>= _).run.run s = _
    rw [run_bind_optionT, hput]
    rcases s.put key (y.entry p outputs) with ⟨_ | _, s⟩ <;> rfl

theorem answer_eq (y : Call) (s : SharedCache) :
    (y.answer p runner).run.run s = match y.key p with
      | .error fault => (some (.error fault), s)
      | .ok key => match s.get y.readAt key with
        | (none, s) => (none, s)
        | (some (.ok (some entry)), s) => (some (.ok ⟨key, true, entry.outputs⟩), s)
        | (some _, s) => match y.outputs p runner with
          | .error fault => (some (.error fault), s)
          | .ok outputs =>
            (some ((s.put key (y.entry p outputs)).1.map fun _ => ⟨key, false, outputs⟩),
              (s.put key (y.entry p outputs)).2) := by
  unfold answer CachedProcess.run
  rw [key_lift, pure_bind]
  cases y.key p with
  | error fault => rfl
  | ok key =>
    have hget : ((Cache.shared y.readAt).get key).run.run s = s.get y.readAt key := rfl
    simp only
    rw [run_bind_optionT, hget]
    -- In turn: the calculation breaks off, the lock refuses, nothing is found, or an entry is.
    rcases s.get y.readAt key with ⟨_ | _ | _ | entry, s⟩
    · rfl
    · exact refresh_eq p runner y key s
    · exact refresh_eq p runner y key s
    · rfl

theorem served_eq (y : Call) (s : SharedCache) : (y.served p runner).run s =
    (((y.answer p runner).run.run s).1.map fun answer => answer.map Answer.outputs,
      ((y.answer p runner).run.run s).2) :=
  rfl

/-! ## Two calls of one key -/

/-- The environment of a call. -/
def environment (y : Call) : Except Fault Environment :=
  (y.surroundings.environment p.configuration : Id _)

/-- A call passes its checks and asks for the key of a request. -/
def Makes (y : Call) (q : Request) : Prop :=
  CachedProcess.check p.configuration y.inputs y.requested = .ok () ∧
    ∃ e, y.environment p = .ok e ∧ q = ⟨p.configuration, e, y.inputs, y.requested⟩

/-- Bytes of which a call takes the digest: the stream of its key, and what goes to standard
input. -/
def Hashes (y : Call) (b : Bytes) : Prop :=
  ∃ q, y.Makes p q ∧ ((∃ l, q.fields p.registry = .ok l ∧ stream l = b) ∨ q.Sends b)

variable {p runner}

theorem key_eq (y : Call) : y.key p = (do
    CachedProcess.check p.configuration y.inputs y.requested
    let e ← y.environment p
    Key.ofRequest p.registry p.configuration e y.inputs y.requested) := by
  unfold key CachedProcess.key
  cases CachedProcess.check p.configuration y.inputs y.requested with
  | error fault => rfl
  | ok _ =>
    have henvironment : y.surroundings.environment p.configuration = y.environment p := rfl
    simp only [CachedProcess.uncheckedKey, henvironment]
    cases y.environment p with
    | error fault => rfl
    | ok e => rfl

theorem request_of_key {y : Call} {key : String} (h : y.key p = .ok key) :
    ∃ q l, y.Makes p q ∧ q.fields p.registry = .ok l ∧ fingerprint l = key := by
  simp only [key_eq, bind_eq_ok_iff] at h
  obtain ⟨_, hcheck, e, he, hkey⟩ := h
  obtain ⟨l, hl, hkey⟩ := map_eq_ok_iff.mp hkey
  exact ⟨_, l, ⟨hcheck, e, he, rfl⟩, hl, hkey⟩

/-- **Calls of one key make the same outputs.** One key is one stream and so one set of facts. With
the names of one call both requests are assembled to the same run, and the program does not look at
the names. -/
theorem outputs_eq_of_key_eq {y z : Call} {key : String}
    (hnames : IgnoresNames runner p.configuration fun u => y.unique = u ∨ z.unique = u)
    (hsha : Digest.CollisionFree fun b => y.Hashes p b ∨ z.Hashes p b)
    (hfy : ∀ q, y.Makes p q → q.Fits) (hfz : ∀ q, z.Makes p q → q.Fits)
    (hy : y.key p = .ok key) (hz : z.key p = .ok key) :
    y.outputs p runner = z.outputs p runner := by
  obtain ⟨a, l, hya, hl, hkl⟩ := request_of_key hy
  obtain ⟨b, m, hzb, hm, hkm⟩ := request_of_key hz
  have hstream : stream l = stream m :=
    hsha _ _ (.inl ⟨a, hya, .inl ⟨l, hl, rfl⟩⟩) (.inr ⟨b, hzb, .inl ⟨m, hm, rfl⟩⟩)
      (sha256_eq_of_fingerprint_eq (hkl.trans hkm.symm))
  obtain ⟨x, hax, hbx⟩ := facts_eq_of_stream_eq hl hm (hfy a hya) (hfz b hzb) hstream
  have hda := Request.describes_of_facts? hax
  have hdb := Request.describes_of_facts? hbx
  have hsent : Digest.CollisionFree fun bytes => a.Sends bytes ∨ b.Sends bytes :=
    hsha.mono fun bytes => Or.imp (fun h => ⟨a, hya, .inr h⟩) (fun h => ⟨b, hzb, .inr h⟩)
  obtain ⟨-, e, -, rfl⟩ := hya
  obtain ⟨-, e', -, rfl⟩ := hzb
  have hpaths := Run.toldPaths_eq_of_facts y.unique 0 (mapM_some_iff.mp hda.inputs)
    (mapM_some_iff.mp hdb.inputs)
  have hown := Run.toldPaths_eq_of_facts z.unique 0 (mapM_some_iff.mp hdb.inputs)
    (mapM_some_iff.mp hdb.inputs)
  -- The two runs with the names of the first call are one, and the second call's own names make no
  -- difference to the runner.
  obtain ⟨r, s, hr, hs, himage⟩ := Run.assemble_eq_of_facts hax hbx hsent hpaths
  obtain ⟨t, _, ht, -, -⟩ := Run.assemble_eq_of_facts hbx hbx
    (hsent.mono fun _ => Or.rec .inr .inr) hown
  have hrs : r = s := by
    rw [← himage, Run.image_of_assemble hs, ← Run.image_of_assemble hr]
  have hst := hnames y.unique z.unique z.inputs z.requested s t (.inl rfl) (.inr rfl) hs ht
  have hrequested : y.requested = z.requested := hda.requested.symm.trans hdb.requested
  have houtputs {w : Call} {t' : RunRequest} (hw : w.requested = z.requested)
      (ht' : Run.assemble w.unique p.configuration w.inputs
        (Run.selected p.configuration w.requested) = .ok t') :
      w.outputs p runner = (do
        let o ← runner t'
        Run.judge p.configuration o
        Run.collect (Run.selected p.configuration z.requested) o) := by
    unfold outputs
    rw [ht', hw]
    rfl
  rw [houtputs hrequested hr, houtputs rfl ht, hrs, hst]

end Call

/-! ## The invariant -/

section

variable {p : CachedProcess} {runner : RunRequest → Except Fault RunOutput}
  {calls earlier : List Call} {c : MemoryCache}

/-- Every entry of a cache is what some call makes, under the key of that call. -/
def Backed (p : CachedProcess) (runner : RunRequest → Except Fault RunOutput) (calls : List Call)
    (c : MemoryCache) : Prop :=
  ∀ e ∈ c.entries, ∃ y ∈ calls, y.key p = .ok e.1 ∧
    ∃ outputs, y.outputs p runner = .ok outputs ∧ e.2.entry = y.entry p outputs

/-- Of some calls, those of one key make the same outputs. -/
def KeysDecide (p : CachedProcess) (runner : RunRequest → Except Fault RunOutput)
    (calls : List Call) : Prop :=
  ∀ y ∈ calls, ∀ z ∈ calls, ∀ key, y.key p = .ok key → z.key p = .ok key →
    y.outputs p runner = z.outputs p runner

/-- A call asks for what an earlier one makes, and that has no end that could be told. -/
def Call.AsksEndless (p : CachedProcess) (runner : RunRequest → Except Fault RunOutput)
    (lifetime : Nat) (earlier : List Call) (y : Call) : Prop :=
  ∃ z ∈ earlier, ∃ key outputs, z.key p = .ok key ∧ y.key p = .ok key ∧
    z.outputs p runner = .ok outputs ∧ (z.entry p outputs).tellsEnd lifetime = false

theorem backed_empty (maxWeight lifetime : Nat) :
    Backed p runner [] (.empty maxWeight lifetime) := by
  intro e he
  cases he

theorem Backed.append (h : Backed p runner earlier c) (later : List Call) :
    Backed p runner (earlier ++ later) c := by
  intro e he
  obtain ⟨y, hy, hmade⟩ := h e he
  exact ⟨y, List.mem_append_left _ hy, hmade⟩

/-- Asking drops entries and makes none. -/
theorem Backed.get (h : Backed p runner earlier c) (now : Instant) (key : String) :
    Backed p runner earlier (c.get now key).2 :=
  fun e he => h e (MemoryCache.mem_of_mem_get he)

/-- A call may store what it makes. -/
theorem Backed.put (h : Backed p runner earlier c) {y : Call} {key : String} {outputs : Outputs}
    (hy : y ∈ earlier) (hkey : y.key p = .ok key) (hout : y.outputs p runner = .ok outputs) :
    Backed p runner earlier (c.put key (y.entry p outputs)) := by
  intro e he
  rcases MemoryCache.mem_of_mem_put he with hold | ⟨hekey, hentry⟩
  · exact h e hold
  · exact ⟨y, hy, by rw [hkey, hekey], outputs, hout, hentry⟩

/-- A call breaks off at an entry without an end. -/
theorem Call.served_of_untold {y : Call} {key : String} (hkey : y.key p = .ok key)
    (huntold : c.tellsEnd key = false) :
    (y.served p runner).run ⟨c, false⟩ = (none, ⟨c, true⟩) := by
  have hget : SharedCache.get ⟨c, false⟩ y.readAt key = (none, ⟨c, true⟩) :=
    SharedCache.get_of_untold rfl huntold
  rw [served_eq, answer_eq, hkey]
  simp only [hget]
  rfl

/-- What is there without an end was made by an earlier call of the key. -/
theorem Backed.asksEndless (hc : Backed p runner earlier c) {y : Call} {key : String}
    (hkey : y.key p = .ok key) (huntold : c.tellsEnd key = false) :
    y.AsksEndless p runner c.lifetime earlier := by
  rw [MemoryCache.tellsEnd, Option.all_eq_false] at huntold
  obtain ⟨stored, hfind, huntold⟩ := huntold
  obtain ⟨z, hz, hzkey, outputs, hzout, hentry⟩ := hc _ (MemoryCache.mem_of_find? hfind)
  refine ⟨z, hz, key, outputs, hzkey, hkey, hzout, ?_⟩
  rw [← hentry]
  simpa using huntold

/-- A call is answered as without a cache, and the cache stays backed. -/
def Call.IsServedFresh (p : CachedProcess) (runner : RunRequest → Except Fault RunOutput)
    (earlier : List Call) (c : MemoryCache) (y : Call) : Prop :=
  ∃ d, (y.served p runner).run ⟨c, false⟩ =
      (some ((y.fresh p runner).map Answer.outputs), ⟨d, false⟩) ∧
    Backed p runner (earlier ++ [y]) d ∧ d.maxWeight = c.maxWeight ∧ d.lifetime = c.lifetime

/-- **A call that gets an answer of the cache**, be it an entry or none. What it finds was made by an
earlier call of its key, which makes what the call itself would make. -/
theorem Call.isServedFresh_of_told {y : Call} {key : String} (hkeys : KeysDecide p runner calls)
    (hy : y ∈ calls) (hearlier : ∀ z ∈ earlier, z ∈ calls) (hc : Backed p runner earlier c)
    (hkey : y.key p = .ok key) (htold : c.tellsEnd key = true) :
    y.IsServedFresh p runner earlier c := by
  have hget : SharedCache.get ⟨c, false⟩ y.readAt key =
      (some (.ok (c.get y.readAt key).1), ⟨(c.get y.readAt key).2, false⟩) :=
    SharedCache.get_of_told rfl htold
  have hafter : Backed p runner (earlier ++ [y]) (c.get y.readAt key).2 :=
    (hc.append [y]).get y.readAt key
  obtain ⟨hmax, hlifetime, -⟩ := MemoryCache.settings_access (c := c) (.get y.readAt key)
  rw [MemoryCache.access] at hmax hlifetime
  rw [IsServedFresh, served_eq, answer_eq, fresh_eq, hkey]
  simp only [hget]
  cases hread : c.get y.readAt key with
  | mk found d =>
    rw [hread] at hafter hmax hlifetime
    cases found with
    | some entry =>
      obtain ⟨stored, hmem, rfl⟩ := MemoryCache.mem_of_get (congrArg Prod.fst hread)
      obtain ⟨z, hz, hzkey, outputs, hzout, hentry⟩ := hc _ hmem
      refine ⟨d, ?_, hafter, hmax, hlifetime⟩
      rw [Except.bind, hkeys y hy z (hearlier z hz) key hkey hzkey, hzout, hentry]
      rfl
    | none =>
      cases hout : y.outputs p runner with
      | error fault => exact ⟨d, by simp [Except.bind, Except.map], hafter, hmax, hlifetime⟩
      | ok outputs =>
        obtain ⟨hmax', hlifetime', -⟩ :=
          MemoryCache.settings_access (c := d) (.put key (y.entry p outputs))
        simp only [SharedCache.put_of_whole]
        exact ⟨d.put key (y.entry p outputs), rfl, hafter.put (by simp) hkey hout,
          hmax'.trans hmax, hlifetime'.trans hlifetime⟩

/-- **One call, while the lock is whole.** It is answered as without a cache, or it breaks off. -/
theorem Call.served_of_whole {y : Call} (hkeys : KeysDecide p runner calls) (hy : y ∈ calls)
    (hearlier : ∀ z ∈ earlier, z ∈ calls) (hc : Backed p runner earlier c) :
    y.IsServedFresh p runner earlier c ∨
      (y.served p runner).run ⟨c, false⟩ = (none, ⟨c, true⟩) ∧
        y.AsksEndless p runner c.lifetime earlier := by
  cases hkey : y.key p with
  | error fault =>
    left
    rw [IsServedFresh, served_eq, answer_eq, fresh_eq, hkey]
    exact ⟨c, rfl, hc.append _, rfl, rfl⟩
  | ok key =>
    cases htold : c.tellsEnd key with
    | true => exact .inl (isServedFresh_of_told hkeys hy hearlier hc hkey htold)
    | false => exact .inr ⟨served_of_untold hkey htold, hc.asksEndless hkey htold⟩

/-- **One call, behind a broken lock.** The program runs, but what has to be stored is not handed
out. -/
theorem Call.served_of_broken {y : Call} {s : SharedCache} (hbroken : s.isBroken = true) :
    (y.served p runner).run s = (some (y.refused p runner s.cache.maxWeight), s) := by
  rw [served_eq, answer_eq, refused, fresh_eq]
  cases y.key p with
  | error fault => rfl
  | ok key =>
    simp only [SharedCache.get_of_broken hbroken]
    cases y.outputs p runner with
    | error fault => rfl
    | ok outputs =>
      simp only [SharedCache.put_of_broken hbroken]
      by_cases hheavy : s.cache.maxWeight < (y.entry p outputs).weight
      · simp [hheavy, Except.map, Except.bind]
      · simp [hheavy, Except.map, Except.bind]

theorem served_cons {y : Call} {ys : List Call} {s s' : SharedCache}
    {answer : Option (Except Fault Outputs)} (h : (y.served p runner).run s = (answer, s')) :
    (((y :: ys).mapM (Call.served p runner)).run s).1 =
      answer :: ((ys.mapM (Call.served p runner)).run s').1 := by
  rw [List.mapM_cons, StateT.run_bind, h]
  rfl

/-- Any number of calls behind a broken lock. -/
theorem served_of_broken {ys : List Call} {s : SharedCache} (hbroken : s.isBroken = true) :
    ((ys.mapM (Call.served p runner)).run s).1 =
      ys.map fun y => some (y.refused p runner s.cache.maxWeight) := by
  induction ys with
  | nil => rfl
  | cons y ys ih =>
    rw [served_cons (Call.served_of_broken hbroken), ih, List.map_cons]

/-- **Any number of calls, while the lock is whole.** They are answered as without a cache, all of
them or those before one that breaks off. -/
theorem served_of_whole {ys : List Call} (hkeys : KeysDecide p runner calls)
    (hys : ∀ y ∈ ys, y ∈ calls) (hearlier : ∀ z ∈ earlier, z ∈ calls)
    (hc : Backed p runner earlier c) :
    let answers := ((ys.mapM (Call.served p runner)).run ⟨c, false⟩).1
    (answers = ys.map fun y => some ((y.fresh p runner).map Answer.outputs)) ∨
    ∃ before y after, ys = before ++ y :: after ∧
      answers = (before.map fun y => some ((y.fresh p runner).map Answer.outputs)) ++
        none :: after.map (fun y => some (y.refused p runner c.maxWeight)) ∧
      y.AsksEndless p runner c.lifetime (earlier ++ before) := by
  induction ys generalizing earlier c with
  | nil => exact .inl rfl
  | cons y ys ih =>
    rw [List.forall_mem_cons] at hys
    rcases Call.served_of_whole hkeys hys.1 hearlier hc with
      ⟨d, hserved, hd, hmax, hlifetime⟩ | ⟨hserved, hendless⟩
    · have hmore : ∀ z ∈ earlier ++ [y], z ∈ calls :=
        List.forall_mem_append.mpr ⟨hearlier, List.forall_mem_singleton.mpr hys.1⟩
      rw [served_cons hserved]
      rcases ih hys.2 hmore hd with hall | ⟨before, z, after, hsplit, hanswers, hendless⟩
      · exact .inl (congrArg (List.cons _) hall)
      · refine .inr ⟨y :: before, z, after, ?_, ?_, ?_⟩
        · rw [hsplit, List.cons_append]
        · rw [hmax] at hanswers
          exact congrArg (List.cons _) hanswers
        · rwa [hlifetime, List.append_assoc] at hendless
    · -- The call that breaks off is the first one of these.
      refine .inr ⟨[], y, ys, rfl, ?_, by rwa [List.append_nil]⟩
      rw [served_cons hserved, served_of_broken rfl]
      rfl

theorem keysDecide (hnames : IgnoresNames runner p.configuration fun u => ∃ y ∈ calls, y.unique = u)
    (hsha : Digest.CollisionFree fun b => ∃ y ∈ calls, y.Hashes p b)
    (hfits : ∀ y ∈ calls, ∀ q, y.Makes p q → q.Fits) : KeysDecide p runner calls := by
  intro y hy z hz key hykey hzkey
  refine Call.outputs_eq_of_key_eq (hnames.mono ?_) (hsha.mono ?_) (hfits y hy) (hfits z hz)
    hykey hzkey
  · exact fun u => Or.rec (fun h => ⟨y, hy, h⟩) (fun h => ⟨z, hz, h⟩)
  · exact fun b => Or.rec (fun h => ⟨y, hy, h⟩) (fun h => ⟨z, hz, h⟩)

end

/-- **A cache is transparent until somebody breaks off.** Whatever calls came before and whatever the
clock showed, each call has the outputs or the fault that it has without a cache. The one exception
is a call of the key of an earlier one whose lifetime has no end in the calendar: it has no answer at
all, and the calls after it find the lock broken. -/
theorem fresh_until_broken {p : CachedProcess} {runner : RunRequest → Except Fault RunOutput}
    {calls : List Call} (maxWeight lifetime : Nat)
    (hnames : IgnoresNames runner p.configuration fun u => ∃ y ∈ calls, y.unique = u)
    (hsha : Digest.CollisionFree fun b => ∃ y ∈ calls, y.Hashes p b)
    (hfits : ∀ y ∈ calls, ∀ q, y.Makes p q → q.Fits) :
    let answers := ((calls.mapM (Call.served p runner)).run (.empty maxWeight lifetime)).1
    (answers = calls.map fun y => some ((y.fresh p runner).map Answer.outputs)) ∨
    ∃ before y after, calls = before ++ y :: after ∧
      answers = (before.map fun y => some ((y.fresh p runner).map Answer.outputs)) ++
        none :: after.map (fun y => some (y.refused p runner maxWeight)) ∧
      y.AsksEndless p runner lifetime before :=
  served_of_whole (keysDecide hnames hsha hfits) (fun _ => id) (List.forall_mem_nil _)
    (backed_empty maxWeight lifetime)

/-- **A cache is transparent** if the end of every lifetime can be told. -/
theorem answers_eq_fresh {p : CachedProcess} {runner : RunRequest → Except Fault RunOutput}
    {calls : List Call} (maxWeight lifetime : Nat)
    (hnames : IgnoresNames runner p.configuration fun u => ∃ y ∈ calls, y.unique = u)
    (hsha : Digest.CollisionFree fun b => ∃ y ∈ calls, y.Hashes p b)
    (hfits : ∀ y ∈ calls, ∀ q, y.Makes p q → q.Fits)
    (hends : ∀ y ∈ calls, y.storedAt.seconds + lifetime ≤ Instant.lastSecond) :
    ((calls.mapM (Call.served p runner)).run (.empty maxWeight lifetime)).1 =
      calls.map fun y => some ((y.fresh p runner).map Answer.outputs) := by
  rcases served_of_whole (keysDecide hnames hsha hfits) (fun _ => id) (List.forall_mem_nil _)
    (backed_empty maxWeight lifetime) with hall | ⟨before, y, after, hsplit, -, hendless⟩
  · exact hall
  · obtain ⟨z, hz, key, outputs, -, -, -, huntold⟩ := hendless
    have hmem : z ∈ calls := by
      rw [hsplit]
      exact List.mem_append_left _ hz
    rw [Entry.tellsEnd_iff.mpr (.inr (hends z hmem))] at huntold
    cases huntold

/-! ## A day at the daemon

Four calls of one request. The second finds the daemon out of reach, the third finds what the first
has stored, and the fourth comes a day later, when that has expired. -/

/-- Prints what is in the files. -/
def printer : Bytes × List Bytes → Except Fault RunOutput :=
  fun contents => .ok ⟨0, contents.2.flatten, [], []⟩

def hillInputs : Inputs := [("times", [.int 3]), ("area", [.file (Text.bytes "hills")])]

def hillCall (imageId : Except Fault (Option String)) (name : String) (time : Instant) : Call where
  surroundings := ⟨fun _ => imageId, none, none⟩
  inputs := hillInputs
  requested := []
  unique := fun place => name ++ String.ofList (Decimal.intText place)
  readAt := time
  storedAt := time

def hillCalls : List Call :=
  [hillCall (.ok (some "sha256:1")) "a" ⟨1767225600, 0⟩,
    hillCall (.error (.imageLookupFailed "relief:2" "unreachable")) "b" ⟨1767225601, 0⟩,
    hillCall (.ok (some "sha256:1")) "c" ⟨1767225602, 0⟩,
    hillCall (.ok (some "sha256:1")) "d" ⟨1767312000, 0⟩]

def hillRequest : Request := ⟨relief, ⟨some "sha256:1", none, none⟩, hillInputs, []⟩

def hillFacts : Facts := { reliefFacts ["relief"] ["--quiet", "--fast"] with
  inputs := [
    ⟨"times", .int, false, .argument (some "-n"), some (.int, .words ["-n", "3"])⟩,
    ⟨"note", .string, true, .stdin, none⟩,
    ⟨"area", .file, false, .toldFile (some "--area"),
      some (.file, .files [("input", Text.bytes "hills")])⟩] }

theorem facts_hill : hillRequest.facts? = some hillFacts := rfl

theorem fits_hill : hillRequest.Fits := by
  intro x hx
  cases facts_hill.symm.trans hx
  constructor <;> decide

/-- Where the calls ask for a key, it is that of one request. -/
theorem makes_hill {y : Call} {q : Request} (hy : y ∈ hillCalls)
    (h : y.Makes ⟨relief, .default⟩ q) : q = hillRequest := by
  obtain ⟨-, e, he, rfl⟩ := h
  simp only [hillCalls, List.mem_cons, List.not_mem_nil, or_false] at hy
  rcases hy with rfl | rfl | rfl | rfl
  · cases he
    rfl
  · cases he
  · cases he
    rfl
  · cases he
    rfl

theorem hashes_hill {y : Call} {b : Bytes} (hy : y ∈ hillCalls)
    (h : y.Hashes ⟨relief, .default⟩ b) : b = stream hillFacts.fields := by
  obtain ⟨q, hq, h⟩ := h
  cases makes_hill hy hq
  rcases h with ⟨l, hl, rfl⟩ | ⟨p, hp, hd, v, hv, -⟩
  · obtain ⟨x, hx, -, rfl⟩ := Request.fields_ok_iff.mp hl
    cases facts_hill.symm.trans hx
    rfl
  · -- Nothing goes to standard input: the note is missing.
    simp only [hillRequest, relief, List.mem_cons, List.not_mem_nil, or_false] at hp
    rcases hp with rfl | rfl | rfl
    · cases hd
    · cases hv
    · cases hd

/-- The calls meet the conditions, and all have the report, made or found, but for the second, which
has its fault. -/
theorem fresh_until_broken_hill :
    (IgnoresNames (fun r => printer r.contents) relief fun u => ∃ y ∈ hillCalls, y.unique = u) ∧
    (Digest.CollisionFree fun b => ∃ y ∈ hillCalls, y.Hashes ⟨relief, .default⟩ b) ∧
    (∀ y ∈ hillCalls, ∀ q, y.Makes ⟨relief, .default⟩ q → q.Fits) ∧
    ((hillCalls.mapM (Call.served ⟨relief, .default⟩ fun r => printer r.contents)).run
        (.empty 100 3600)).1 =
      [some (.ok [("report", .string "hills")]),
        some (.error (.imageLookupFailed "relief:2" "unreachable")),
        some (.ok [("report", .string "hills")]),
        some (.ok [("report", .string "hills")])] := by
  have hnames := ignoresNames_of_contents printer relief fun u => ∃ y ∈ hillCalls, y.unique = u
  have hsha : Digest.CollisionFree fun b => ∃ y ∈ hillCalls, y.Hashes ⟨relief, .default⟩ b := by
    rintro b b' ⟨y, hy, hb⟩ ⟨z, hz, hb'⟩ -
    exact (hashes_hill hy hb).trans (hashes_hill hz hb').symm
  have hfits : ∀ y ∈ hillCalls, ∀ q, y.Makes ⟨relief, .default⟩ q → q.Fits := by
    intro y hy q hq
    rw [makes_hill hy hq]
    exact fits_hill
  have hends : ∀ y ∈ hillCalls, y.storedAt.seconds + 3600 ≤ Instant.lastSecond := by decide
  refine ⟨hnames, hsha, hfits, ?_⟩
  rcases fresh_until_broken 100 3600 hnames hsha hfits with
    hall | ⟨before, y, after, hsplit, -, z, hz, key, outputs, -, -, -, huntold⟩
  · exact hall.trans rfl
  · -- No call breaks off: what an earlier one makes has an end.
    have hmem : z ∈ hillCalls := hsplit ▸ List.mem_append_left _ hz
    rw [Entry.tellsEnd_iff.mpr (.inr (hends z hmem))] at huntold
    cases huntold

/-! ### A lifetime without an end -/

theorem key_hill {name : String} {time : Instant} :
    (hillCall (.ok (some "sha256:1")) name time).key ⟨relief, .default⟩ =
      .ok (fingerprint hillFacts.fields) := by
  have hknows : Knows .default relief := by
    intro slot name hname
    cases slot with
    | stderr => cases hname
    | exitValue =>
      cases hname
      decide
    | stdout => cases hname
  have hfields : hillRequest.fields .default = .ok hillFacts.fields :=
    Request.fields_ok_iff.mpr ⟨hillFacts, facts_hill, hknows, rfl⟩
  rw [Call.key_eq]
  exact congrArg (Except.map fingerprint) hfields

/-- The report that the calls make. -/
def hillReport : Outputs := [("report", .string "hills")]

/-- The cache after the first call. -/
def hillCache : MemoryCache :=
  ⟨100, SharedCache.ages,
    [(fingerprint hillFacts.fields, ⟨⟨relief.id, ⟨1767225600, 0⟩, hillReport⟩, 11, 0⟩)], 11, 1⟩

theorem served_first : ((hillCall (.ok (some "sha256:1")) "a" ⟨1767225600, 0⟩).served
    ⟨relief, .default⟩ fun r => printer r.contents).run (.empty 100 SharedCache.ages) =
      (some (.ok hillReport), ⟨hillCache, false⟩) := by
  have houtputs : (hillCall (.ok (some "sha256:1")) "a" ⟨1767225600, 0⟩).outputs
    ⟨relief, .default⟩ (fun r => printer r.contents) = .ok hillReport := by rfl
  have hget (now : Instant) (key : String) : (SharedCache.empty 100 SharedCache.ages).get now key =
      (some (.ok none), .empty 100 SharedCache.ages) := rfl
  rw [Call.served_eq, Call.answer_eq, key_hill]
  simp only [hget, houtputs]
  rfl

/-- **A request breaks off that was answered before.** With a lifetime that leads beyond the
calendar the third call finds what the first has stored and has no answer, and the fourth is refused,
although the program runs for it as it did for the first. -/
theorem third_call_breaks_off :
    ((hillCalls.mapM (Call.served ⟨relief, .default⟩ fun r => printer r.contents)).run
        (.empty 100 SharedCache.ages)).1 =
      [some (.ok hillReport), some (.error (.imageLookupFailed "relief:2" "unreachable")), none,
        some (.error SharedCache.lockBroken)] ∧
    (hillCalls.map fun y => some ((y.fresh ⟨relief, .default⟩ fun r => printer r.contents).map
        Answer.outputs)) =
      [some (.ok hillReport), some (.error (.imageLookupFailed "relief:2" "unreachable")),
        some (.ok hillReport), some (.ok hillReport)] := by
  refine ⟨?_, rfl⟩
  have hsecond : ((hillCall (.error (.imageLookupFailed "relief:2" "unreachable")) "b"
      ⟨1767225601, 0⟩).served ⟨relief, .default⟩ fun r => printer r.contents).run
        ⟨hillCache, false⟩ =
      (some (.error (.imageLookupFailed "relief:2" "unreachable")), ⟨hillCache, false⟩) := by
    rfl
  -- The end of the entry lies beyond the calendar, and now it is asked for.
  have hthird : ((hillCall (.ok (some "sha256:1")) "c" ⟨1767225602, 0⟩).served
      ⟨relief, .default⟩ fun r => printer r.contents).run ⟨hillCache, false⟩ =
      (none, ⟨hillCache, true⟩) := by
    have huntold : hillCache.tellsEnd (fingerprint hillFacts.fields) = false := by
      rw [MemoryCache.tellsEnd, Option.all_eq_false]
      refine ⟨⟨⟨relief.id, ⟨1767225600, 0⟩, hillReport⟩, 11, 0⟩, ?_, by decide⟩
      simp [MemoryCache.find?, hillCache]
    exact Call.served_of_untold key_hill huntold
  rw [hillCalls, served_cons served_first, served_cons hsecond, served_cons hthird,
    served_of_broken rfl]
  rfl

end CachedRun
