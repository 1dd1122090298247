import CachedRun.Container
import CachedRun.Proofs.Result

/-!
# Lifecycle — what becomes of a container

A run speaks to the daemon, and the daemon may do as it likes: not start, take too long, or end with
any exit code and any output, and all that differently each time. `lifecycle_of_run` says what the
daemon is asked all the same. **A container that was created is removed, by force, once and last; in
between, files go in, the program is started once at most, and files come out, in this order; and
what becomes of the removal does not matter to the answer.**

The daemon has a state of its own. It is watched by a daemon that keeps a list of what it was asked
(`watched`), and `Traced` is the notion that carries the proofs: the watched computation does what
the other does, and what it asked and answers are so and so. It goes along binds (`Traced.bind`), so
there is one lemma for each step of a run.
-/

set_option autoImplicit false

namespace CachedRun

/-- The program was run and ended well. -/
def Outcome.Succeeds (outcome : Outcome) : Prop := ∃ e, outcome = .ended e ∧ e.isSuccess = true

namespace Container

open Result

/-! ## Watching a daemon

The list is kept in the state, behind whatever the daemon does with its own. So the watched daemon
answers as the other does, and to know what a run has asked is to run it with the watched one. -/

/-- What a daemon is asked. -/
structure Question where
  arguments : List String
  stdin : Bytes
  limit : Option Nat
  deriving DecidableEq

/-- A question with what became of it. -/
structure Exchange where
  question : Question
  outcome : Outcome

variable {σ : Type}

/-- The state of a daemon, and what it has been asked so far. -/
structure Watched (σ : Type) where
  rest : σ
  exchanges : List Exchange

/-- A daemon that keeps a list of what it is asked. -/
def watched (d : Daemon (StateM σ)) : Daemon (StateM (Watched σ)) where
  program := d.program
  call := fun arguments stdin limit w =>
    (((d.call arguments stdin limit).run w.rest).1,
      ⟨((d.call arguments stdin limit).run w.rest).2,
        w.exchanges ++ [⟨⟨arguments, stdin, limit⟩, ((d.call arguments stdin limit).run w.rest).1⟩]⟩)

/-- The watched computation does as the other does, and its exchanges and its result are so. -/
def Traced {α : Type} (x' : ExceptT Fault (StateM (Watched σ)) α) (x : ExceptT Fault (StateM σ) α)
    (P : List Exchange → Except Fault α → Prop) : Prop :=
  ∀ w : Watched σ, ∃ exchanges, P exchanges (x.run.run w.rest).1 ∧
    x'.run.run w = ((x.run.run w.rest).1, ⟨(x.run.run w.rest).2, w.exchanges ++ exchanges⟩)

namespace Traced

variable {α β : Type} {x' : ExceptT Fault (StateM (Watched σ)) α} {x : ExceptT Fault (StateM σ) α}
  {P : List Exchange → Except Fault α → Prop} {Q : List Exchange → Except Fault β → Prop}

theorem mono {P' : List Exchange → Except Fault α → Prop} (hx : Traced x' x P)
    (h : ∀ exchanges result, P exchanges result → P' exchanges result) : Traced x' x P' := by
  intro w
  obtain ⟨exchanges, hP, hrun⟩ := hx w
  exact ⟨exchanges, h exchanges _ hP, hrun⟩

/-- A result that is known without the daemon. -/
theorem result {r : Except Fault α} (h : P [] r) :
    Traced (σ := σ) (ExceptT.mk (pure r)) (ExceptT.mk (pure r)) P := by
  intro w
  exact ⟨[], h, by rw [List.append_nil]; rfl⟩

theorem bind {f' : α → ExceptT Fault (StateM (Watched σ)) β} {f : α → ExceptT Fault (StateM σ) β}
    (hx : Traced x' x P)
    (hfault : ∀ exchanges fault, P exchanges (.error fault) → Q exchanges (.error fault))
    (hrest : ∀ exchanges a, P exchanges (.ok a) →
      Traced (f' a) (f a) fun later result => Q (exchanges ++ later) result) :
    Traced (x' >>= f') (x >>= f) Q := by
  intro w
  obtain ⟨exchanges, hP, hrun⟩ := hx w
  cases hx : x.run.run w.rest with
  | mk result rest =>
    rw [hx] at hP hrun
    cases result with
    | error fault =>
      rw [run_bind_of_error hx, run_bind_of_error hrun]
      exact ⟨exchanges, hfault exchanges fault hP, rfl⟩
    | ok a =>
      obtain ⟨later, hQ, hlater⟩ := hrest exchanges a hP ⟨rest, w.exchanges ++ exchanges⟩
      rw [run_bind_of_ok hx, run_bind_of_ok hrun, hlater, List.append_assoc]
      exact ⟨exchanges ++ later, hQ, rfl⟩

end Traced

/-- One question, with its answer or the fault that there is none. -/
inductive Asked (operation : String) (millis : Nat) (question : Question) :
    List Exchange → Except Fault Ended → Prop where
  | ended (e : Ended) : Asked operation millis question [⟨question, .ended e⟩] (.ok e)
  | failed {outcome : Outcome} {fault : Fault}
    (h : outcome.orFault runnerName operation millis = .error fault) :
    Asked operation millis question [⟨question, outcome⟩] (.error fault)

theorem traced_ask (d : Daemon (StateM σ)) (operation : String) (millis : Nat)
    (arguments : List String) (stdin : Bytes) :
    Traced ((watched d).ask runnerName operation millis arguments stdin)
      (d.ask runnerName operation millis arguments stdin)
      (Asked operation millis ⟨arguments, stdin, some millis⟩) := by
  intro w
  refine ⟨[⟨⟨arguments, stdin, some millis⟩, ((d.call arguments stdin (some millis)).run w.rest).1⟩],
    ?_, rfl⟩
  change Asked operation millis _ _ (((d.call arguments stdin (some millis)).run w.rest).1.orFault
    runnerName operation millis)
  cases houtcome : ((d.call arguments stdin (some millis)).run w.rest).1 with
  | ended e => exact .ended e
  | notStarted reason => exact .failed rfl
  | timedOut => exact .failed rfl

/-! ## The questions of a run -/

def creating (request : RunRequest) : Question :=
  ⟨createArguments request, [], some Daemon.callMillis⟩

/-- Copying files below a directory. Without files there is nothing to ask, and with files that
cannot be packed nothing that can be asked. -/
def sending (id destination : String) (files : List (String × Bytes)) : List (Option Question) :=
  if files = [] then []
  else [(pack files).toOption.map fun archive =>
    ⟨copyInArguments id destination, archive, some Daemon.callMillis⟩]

/-- The relative files go into the working directory, then the absolute ones below the root. -/
def sendings (request : RunRequest) (id : String) : List (Option Question) :=
  sending id request.workingDirectory (relativeFiles request.inputFiles)
    ++ sending id "/" (absoluteFiles request.inputFiles)

def starting (millis : Nat) (request : RunRequest) (id : String) : Question :=
  ⟨startArguments id, request.stdin, some millis⟩

def fetching (id workingDirectory path : String) : Question :=
  ⟨copyOutArguments id (sourceOf workingDirectory path), [], some Daemon.callMillis⟩

def removing (id : String) : Question := ⟨removeArguments id, [], some Daemon.callMillis⟩

/-- What is asked between creation and removal, with the result. -/
structure Stay (millis : Nat) (request : RunRequest) (id : String) (ins starts outs : List Exchange)
    (result : Except Fault RunOutput) : Prop where
  sent : ins.map (fun x => some x.question) <+: sendings request id
  started : starts = [] ∨ ∃ outcome, starts = [⟨starting millis request id, outcome⟩]
  /-- All files are in before the program is started. -/
  startedLate : starts ≠ [] → ins.map (fun x => some x.question) = sendings request id ∧
    ∀ x ∈ ins, x.outcome.Succeeds
  fetched : outs.map (·.question) <+: request.outputFiles.map (fetching id request.workingDirectory)
  /-- The program has ended before a file is taken out. -/
  fetchedLate : outs ≠ [] → ∃ e, starts = [⟨starting millis request id, .ended e⟩]
  /-- Whoever gets an output gets that of the program, after all files were asked for. -/
  answered : ∀ output, result = .ok output →
    outs.map (·.question) = request.outputFiles.map (fetching id request.workingDirectory) ∧
    ∃ e, starts = [⟨starting millis request id, .ended e⟩] ∧
      output.exitCode = e.code ∧ output.stdout = e.stdout ∧ output.stderr = e.stderr

/-! ## The steps

One lemma for each step, in the order of the run. Each says what was asked if the step failed and
what if it went well, and the next step is taken in the second case only. -/

variable {d : Daemon (StateM σ)} {millis : Nat} {request : RunRequest} {id : String}

/-- Questions that are asked one after the other, for as long as they succeed. -/
structure Sent (questions : List (Option Question)) (exchanges : List Exchange)
    (result : Except Fault Unit) : Prop where
  inOrder : exchanges.map (fun x => some x.question) <+: questions
  all : result = .ok () → exchanges.map (fun x => some x.question) = questions ∧
    ∀ x ∈ exchanges, x.outcome.Succeeds

namespace Sent

variable {questions later : List (Option Question)} {exchanges more : List Exchange}
  {result : Except Fault Unit}

theorem of_error {fault : Fault} (h : Sent questions exchanges (.error fault)) :
    Sent (questions ++ later) exchanges (.error fault) where
  inOrder := h.inOrder.trans (List.prefix_append ..)
  all := nofun

theorem append (h : Sent questions exchanges (.ok ())) (hlater : Sent later more result) :
    Sent (questions ++ later) (exchanges ++ more) result := by
  obtain ⟨hall, hsucceed⟩ := h.all rfl
  constructor
  · rw [List.map_append, hall]
    exact (List.prefix_append_right_inj _).mpr hlater.inOrder
  · intro hresult
    obtain ⟨hall', hsucceed'⟩ := hlater.all hresult
    refine ⟨by rw [List.map_append, hall, hall'], ?_⟩
    intro x hx
    rcases List.mem_append.mp hx with hx | hx
    · exact hsucceed x hx
    · exact hsucceed' x hx

end Sent

section

variable (d : Daemon (StateM σ)) (millis : Nat) (request : RunRequest) (id : String)

theorem traced_create : Traced (create (watched d) request) (create d request)
    fun exchanges result => ∃ outcome, exchanges = [⟨creating request, outcome⟩] ∧
      result = (outcome.orFault runnerName "container create" Daemon.callMillis).bind idOf := by
  apply (traced_ask d _ _ _ _).bind
  · rintro _ fault (_ | @⟨outcome, _, h⟩)
    exact ⟨outcome, rfl, by rw [h]; rfl⟩
  · rintro _ e ⟨⟩
    exact .result ⟨.ended e, rfl, rfl⟩

theorem traced_copyInto (destination : String) (files : List (String × Bytes)) :
    Traced (copyInto (watched d) id destination files) (copyInto d id destination files)
      (Sent (sending id destination files)) := by
  unfold copyInto sending
  by_cases hfiles : files = []
  · rw [if_pos hfiles, if_pos hfiles, if_pos hfiles]
    exact .result ⟨List.prefix_rfl, fun _ => ⟨rfl, List.forall_mem_nil _⟩⟩
  · rw [if_neg hfiles, if_neg hfiles, if_neg hfiles]
    -- Packing asks nothing. Then there is one question, whose answer decides how the copy ends.
    apply Traced.bind (P := fun exchanges result => exchanges = [] ∧ result = pack files)
    · exact .result ⟨rfl, rfl⟩
    · rintro _ fault ⟨rfl, -⟩
      exact ⟨List.nil_prefix, nofun⟩
    · rintro _ archive ⟨rfl, hpack⟩
      rw [← hpack]
      apply (traced_ask d _ _ _ _).bind
      · rintro _ fault (_ | _)
        exact ⟨List.prefix_rfl, nofun⟩
      · rintro _ e ⟨⟩
        by_cases hsuccess : e.isSuccess = true
        · rw [hsuccess]
          exact .result ⟨List.prefix_rfl, fun _ =>
            ⟨rfl, List.forall_mem_singleton.mpr ⟨e, rfl, hsuccess⟩⟩⟩
        · rw [Bool.not_eq_true] at hsuccess
          rw [hsuccess]
          exact .result ⟨List.prefix_rfl, nofun⟩

/-- **The files go in**, as far as they are taken. -/
theorem traced_copyIn : Traced (copyIn (watched d) id request) (copyIn d id request)
    (Sent (sendings request id)) := by
  apply (traced_copyInto d id _ _).bind
  · intro exchanges fault h
    exact h.of_error
  · intro exchanges _ h
    apply (traced_copyInto d id _ _).mono
    intro more result hmore
    exact h.append hmore

theorem traced_copyOut (source : String) :
    Traced (copyOut (watched d) id source) (copyOut d id source) fun exchanges _ =>
      exchanges.map (·.question) = [⟨copyOutArguments id source, [], some Daemon.callMillis⟩] := by
  apply (traced_ask d _ _ _ _).bind
  · rintro _ fault (_ | _)
    exact rfl
  · rintro _ e ⟨⟩
    cases e.isSuccess with
    | true => exact .result rfl
    | false => exact .result rfl

/-- Questions that are asked one after the other, to the last if there is a result. -/
structure Fetched (questions : List Question) (exchanges : List Exchange)
    (result : Except Fault (Dict Bytes)) : Prop where
  inOrder : exchanges.map (·.question) <+: questions
  all : ∀ files, result = .ok files → exchanges.map (·.question) = questions

theorem Fetched.cons {question : Question} {questions : List Question}
    {exchanges more : List Exchange} {result : Except Fault (Dict Bytes)}
    (h : exchanges.map (·.question) = [question]) (hmore : Fetched questions more result) :
    Fetched (question :: questions) (exchanges ++ more) result where
  inOrder := by
    rw [List.map_append, h]
    exact (List.prefix_append_right_inj [question]).mpr hmore.inOrder
  all := by
    intro files hfiles
    rw [List.map_append, h, hmore.all files hfiles]
    rfl

/-- **The files come out** in their order. -/
theorem traced_collect (workingDirectory : String) (found : Dict Bytes) (paths : List String) :
    Traced (collect (watched d) id workingDirectory found paths)
      (collect d id workingDirectory found paths)
      (Fetched (paths.map (fetching id workingDirectory))) := by
  induction paths generalizing found with
  | nil => exact .result ⟨List.prefix_rfl, fun _ _ => rfl⟩
  | cons path paths ih =>
    apply (traced_copyOut d id _).bind
    · intro exchanges fault h
      constructor
      · rw [h]
        exact List.prefix_append [fetching id workingDirectory path] _
      · exact nofun
    · intro exchanges content h
      -- Whether the file was there or not, the next one is asked for.
      cases content with
      | some content => exact (ih _).mono fun more _ hmore => hmore.cons h
      | none => exact (ih _).mono fun more _ hmore => hmore.cons h

/-- **The steps inside a container** are a stay. Files go in, the program is started and files come
out, and each step is taken only if all before it went well. -/
theorem traced_runIn : Traced (runIn (watched d) millis id request) (runIn d millis id request)
    fun exchanges result => ∃ ins starts outs, exchanges = ins ++ starts ++ outs ∧
      Stay millis request id ins starts outs result := by
  apply (traced_copyIn d request id).bind
  · -- Not all files are in, and nothing is started.
    intro ins fault h
    refine ⟨ins, [], [], by simp, ?_⟩
    exact ⟨h.inOrder, .inl rfl, fun hne => absurd rfl hne, List.nil_prefix,
      fun hne => absurd rfl hne, nofun⟩
  · intro ins _ h
    apply (traced_ask d _ _ _ _).bind
    · -- The program has not ended, and nothing is taken out.
      rintro _ fault (_ | @⟨outcome, _, _⟩)
      refine ⟨ins, [⟨starting millis request id, outcome⟩], [], by simp [starting], ?_⟩
      exact ⟨h.inOrder, .inr ⟨outcome, rfl⟩, fun _ => h.all rfl, List.nil_prefix,
        fun hne => absurd rfl hne, nofun⟩
    · rintro _ e ⟨⟩
      apply (traced_collect d id _ _ _).bind
      · intro outs fault houts
        refine ⟨ins, [⟨starting millis request id, .ended e⟩], outs, by simp [starting], ?_⟩
        exact ⟨h.inOrder, .inr ⟨_, rfl⟩, fun _ => h.all rfl, houts.inOrder, fun _ => ⟨e, rfl⟩, nofun⟩
      · intro outs files houts
        apply Traced.result
        refine ⟨ins, [⟨starting millis request id, .ended e⟩], outs, by simp [starting], ?_⟩
        refine ⟨h.inOrder, .inr ⟨_, rfl⟩, fun _ => h.all rfl, houts.inOrder, fun _ => ⟨e, rfl⟩, ?_⟩
        rintro output ⟨⟩
        exact ⟨houts.all files rfl, e, rfl, rfl, rfl, rfl⟩

end

/-! ## The removal

The removal is not among the steps: it is asked for after them, however they ended. So it has to be
shown that none of them removes a container, and that what becomes of the removal is not looked at.
-/

/-- A question that removes some container. -/
def Question.Removes (question : Question) : Prop :=
  ∃ id, question.arguments = removeArguments id

theorem Question.not_removes {question : Question} (word : String)
    (h : question.arguments[1]? = some word) (hword : word ≠ "rm") : ¬ question.Removes := by
  -- The second word of a question is what the daemon is to do.
  rintro ⟨id, hid⟩
  rw [hid] at h
  exact hword (Option.some.inj h).symm

theorem not_removes_of_sending {destination : String} {files : List (String × Bytes)}
    {question : Question} (h : some question ∈ sending id destination files) :
    ¬ question.Removes := by
  unfold sending at h
  split at h
  · cases h
  · obtain ⟨archive, -, rfl⟩ := Option.map_eq_some_iff.mp (List.mem_singleton.mp h).symm
    exact Question.not_removes "cp" rfl (by decide)

/-- Nothing is removed during a stay. -/
theorem Stay.not_removes {ins starts outs : List Exchange} {result : Except Fault RunOutput}
    (h : Stay millis request id ins starts outs result) :
    ∀ x ∈ ins ++ starts ++ outs, ¬ x.question.Removes := by
  intro x hx
  rw [List.mem_append, List.mem_append] at hx
  rcases hx with (hx | hx) | hx
  · have hmem := h.sent.subset (List.mem_map_of_mem hx)
    rcases List.mem_append.mp hmem with hmem | hmem
    · exact not_removes_of_sending hmem
    · exact not_removes_of_sending hmem
  · rcases h.started with rfl | ⟨outcome, rfl⟩
    · cases hx
    · rw [List.mem_singleton.mp hx]
      exact Question.not_removes "start" rfl (by decide)
  · have hmem := h.fetched.subset (List.mem_map_of_mem hx)
    obtain ⟨path, -, hpath⟩ := List.mem_map.mp hmem
    rw [← hpath]
    exact Question.not_removes "cp" rfl (by decide)

/-- A daemon whose removals are done by another. -/
def removingBy (d : Daemon (StateM σ)) (removal : String → StateM σ Outcome) :
    Daemon (StateM σ) where
  program := d.program
  call := fun arguments stdin limit =>
    match arguments with
    | ["container", "rm", "--force", id] => removal id
    | _ => d.call arguments stdin limit

section

variable (removal : String → StateM σ Outcome)

theorem ask_removingBy {operation : String} {arguments : List String} {stdin : Bytes}
    (word : String) (h : arguments[1]? = some word) (hword : word ≠ "rm") :
    (removingBy d removal).ask runnerName operation millis arguments stdin =
      d.ask runnerName operation millis arguments stdin := by
  have hcall : (removingBy d removal).call arguments stdin = d.call arguments stdin := by
    funext limit
    unfold removingBy
    dsimp only
    split
    · exact absurd (Option.some.inj h).symm hword
    · rfl
  unfold Daemon.ask
  rw [hcall]

theorem create_removingBy : create (removingBy d removal) request = create d request := by
  unfold create ask
  rw [ask_removingBy removal "create" rfl (by decide)]

theorem copyInto_removingBy {destination : String} {files : List (String × Bytes)} :
    copyInto (removingBy d removal) id destination files = copyInto d id destination files := by
  unfold copyInto ask
  have hask : ∀ archive, (removingBy d removal).ask runnerName "container cp in" Daemon.callMillis
      (copyInArguments id destination) archive = d.ask runnerName "container cp in"
      Daemon.callMillis (copyInArguments id destination) archive := by
    intro archive
    exact ask_removingBy removal "cp" rfl (by decide)
  simp only [hask]

theorem copyOut_removingBy {source : String} :
    copyOut (removingBy d removal) id source = copyOut d id source := by
  unfold copyOut ask
  rw [ask_removingBy removal "cp" rfl (by decide)]

theorem collect_removingBy {workingDirectory : String} {found : Dict Bytes} {paths : List String} :
    collect (removingBy d removal) id workingDirectory found paths =
      collect d id workingDirectory found paths := by
  induction paths generalizing found with
  | nil => rfl
  | cons path paths ih =>
    unfold collect
    rw [copyOut_removingBy]
    apply bind_congr
    intro content
    cases content with
    | some content => exact ih
    | none => exact ih

theorem runIn_removingBy :
    runIn (removingBy d removal) millis id request = runIn d millis id request := by
  unfold runIn copyIn
  rw [copyInto_removingBy, copyInto_removingBy,
    ask_removingBy removal "start" (by rfl) (by decide)]
  simp only [collect_removingBy]

end

/-! ## The whole run -/

section

variable {τ : Type} {d : Daemon (StateM τ)} {s rest : τ} {fault : Fault}

theorem run_of_refused (h : check request = .error fault) :
    (run d millis request).run s = (.error fault, s) := by
  unfold run
  rw [h]
  rfl

theorem run_of_not_created (hcheck : check request = .ok ())
    (h : (create d request).run.run s = (.error fault, rest)) :
    (run d millis request).run s = (.error fault, rest) := by
  unfold run
  rw [hcheck]
  simp only [StateT.run_bind, h]
  rfl

theorem run_of_created (hcheck : check request = .ok ())
    (h : (create d request).run.run s = (.ok id, rest)) :
    (run d millis request).run s = (((runIn d millis id request).run.run rest).1,
      ((d.call (removeArguments id) [] (some Daemon.callMillis)).run
        ((runIn d millis id request).run.run rest).2).2) := by
  unfold run
  rw [hcheck]
  simp only [StateT.run_bind, h]
  rfl

end

theorem check_eq_ok_iff :
    check request = .ok () ↔ Image.flaw? request.image = none ∧ request.command ≠ [] := by
  unfold check Image.validate
  cases Image.flaw? request.image with
  | some reason => simp [bind, Except.bind]
  | none =>
    by_cases hcommand : request.command = []
    · simp [hcommand, bind, Except.bind]
    · simp [hcommand, bind, Except.bind, pure, Except.pure]

theorem idOf_eq_ok_iff {e : Ended} :
    idOf e = .ok id ↔ e.isSuccess = true ∧ e.answer = id ∧ id ≠ "" := by
  unfold idOf
  cases e.isSuccess with
  | false => simp
  | true =>
    by_cases hanswer : e.answer = ""
    · simp [hanswer, eq_comm]
    · simp only [Bool.not_true, Bool.false_eq_true, if_false, if_neg hanswer, Except.ok.injEq,
        true_and]
      constructor
      · rintro rfl
        exact ⟨rfl, hanswer⟩
      · exact And.left

/-- A creation that has an id was answered by it. -/
theorem ended_of_created {outcome : Outcome} {operation : String}
    (h : (outcome.orFault runnerName operation millis).bind idOf = .ok id) :
    ∃ e, outcome = .ended e ∧ idOf e = .ok id := by
  cases outcome with
  | ended e => exact ⟨e, rfl, h⟩
  | notStarted reason => cases h
  | timedOut => cases h

/-- What a daemon is asked for a request, in the state `s`, with the result of the run. -/
inductive Lifecycle (d : Daemon (StateM σ)) (millis : Nat) (request : RunRequest) (s : σ) :
    List Exchange → Except Fault RunOutput → Prop where
  /-- The image or the command is no good. -/
  | refused (h : Image.flaw? request.image ≠ none ∨ request.command = []) {fault : Fault}
    (hfault : check request = .error fault) : Lifecycle d millis request s [] (.error fault)
  /-- The creation fails, or prints no id. -/
  | notCreated (himage : Image.flaw? request.image = none) (hcommand : request.command ≠ [])
    {outcome : Outcome} (h : ∀ e, outcome = .ended e → e.isSuccess = true → e.answer = "")
    {fault : Fault} {rest : σ} (hfault : (create d request).run.run s = (.error fault, rest)) :
    Lifecycle d millis request s [⟨creating request, outcome⟩] (.error fault)
  /-- The container is created and removed, and the result is that of the steps between. -/
  | removed (himage : Image.flaw? request.image = none) (hcommand : request.command ≠ [])
    {e : Ended} {id : String} (hsuccess : e.isSuccess = true) (hid : e.answer = id) (hne : id ≠ "")
    {rest : σ} (hcreate : (create d request).run.run s = (.ok id, rest))
    {ins starts outs : List Exchange}
    (hstay : Stay millis request id ins starts outs ((runIn d millis id request).run.run rest).1)
    (honce : ∀ x ∈ ⟨creating request, .ended e⟩ :: (ins ++ starts ++ outs), ¬ x.question.Removes)
    (outcome : Outcome) :
    Lifecycle d millis request s
      (⟨creating request, .ended e⟩ :: (ins ++ starts ++ outs) ++ [⟨removing id, outcome⟩])
      ((runIn d millis id request).run.run rest).1

theorem lifecycle (d : Daemon (StateM σ)) (millis : Nat) (request : RunRequest) (s : σ) :
    ∃ exchanges, Lifecycle d millis request s exchanges ((run d millis request).run s).1 ∧
      (run (watched d) millis request).run ⟨s, []⟩ =
        (((run d millis request).run s).1, ⟨((run d millis request).run s).2, exchanges⟩) := by
  -- The run can end at three places: before anything is asked, with the creation, or with the
  -- removal.
  cases hcheck : check request with
  | error fault =>
    rw [run_of_refused hcheck, run_of_refused hcheck]
    refine ⟨[], .refused ?_ hcheck, rfl⟩
    have hnot : ¬ check request = .ok () := by
      rw [hcheck]
      exact nofun
    rw [check_eq_ok_iff, not_and_or, not_ne_iff] at hnot
    exact hnot
  | ok _ =>
    obtain ⟨himage, hcommand⟩ := check_eq_ok_iff.mp hcheck
    obtain ⟨_, ⟨outcome, rfl, hanswer⟩, hwatched⟩ :=
      traced_create d request ⟨s, []⟩
    dsimp only at hanswer hwatched
    cases hcreate : (create d request).run.run s with
    | mk result rest =>
      rw [hcreate] at hanswer hwatched
      cases result with
      | error fault =>
        rw [run_of_not_created hcheck hcreate, run_of_not_created hcheck hwatched]
        refine ⟨[⟨creating request, outcome⟩], .notCreated himage hcommand ?_ hcreate, rfl⟩
        rintro e rfl hsuccess
        by_contra hprinted
        have hid : idOf e = .ok e.answer := idOf_eq_ok_iff.mpr ⟨hsuccess, rfl, hprinted⟩
        exact nomatch hanswer.trans hid
      | ok id =>
        obtain ⟨e, rfl, hid⟩ := ended_of_created hanswer.symm
        obtain ⟨hsuccess, hprinted, hne⟩ := idOf_eq_ok_iff.mp hid
        obtain ⟨_, ⟨ins, starts, outs, rfl, hstay⟩, hsteps⟩ :=
          traced_runIn d millis request id ⟨rest, [⟨creating request, .ended e⟩]⟩
        dsimp only at hsteps
        rw [run_of_created hcheck hcreate, run_of_created hcheck hwatched]
        -- None of the questions before the last one removes the container.
        have honce : ∀ x ∈ ⟨creating request, .ended e⟩ :: (ins ++ starts ++ outs),
            ¬ x.question.Removes := by
          rw [List.forall_mem_cons]
          exact ⟨Question.not_removes "create" rfl (by decide), hstay.not_removes⟩
        exact ⟨_, .removed himage hcommand hsuccess hprinted hne hcreate hstay honce
          ((d.call (removeArguments id) [] (some Daemon.callMillis)).run
            ((runIn d millis id request).run.run rest).2).1, by rw [List.nil_append, hsteps]; rfl⟩

/-- **What becomes of the removal does not matter.** -/
theorem run_removingBy (d : Daemon (StateM σ)) (millis : Nat) (request : RunRequest) (s : σ)
    (removal : String → StateM σ Outcome) :
    ((run (removingBy d removal) millis request).run s).1 = ((run d millis request).run s).1 := by
  cases hcheck : check request with
  | error fault => rw [run_of_refused hcheck, run_of_refused hcheck]
  | ok _ =>
    cases hcreate : (create d request).run.run s with
    | mk result rest =>
      have hcreate' := hcreate
      rw [← create_removingBy removal] at hcreate'
      cases result with
      | error fault => rw [run_of_not_created hcheck hcreate, run_of_not_created hcheck hcreate']
      | ok id =>
        rw [run_of_created hcheck hcreate, run_of_created hcheck hcreate', runIn_removingBy removal]

/-- **Every container that is created is removed**, and all that happens to it before is in order.
Whoever removes containers, and whatever comes of it, the result is the same. The order is that of
the exchanges which a watched daemon notes, and to be watched makes no difference to a run. -/
theorem lifecycle_of_run (d : Daemon (StateM σ)) (millis : Nat) (request : RunRequest) (s : σ) :
    (∃ exchanges, Lifecycle d millis request s exchanges ((run d millis request).run s).1 ∧
      (run (watched d) millis request).run ⟨s, []⟩ =
        (((run d millis request).run s).1, ⟨((run d millis request).run s).2, exchanges⟩)) ∧
    ∀ removal : String → StateM σ Outcome,
      ((run (removingBy d removal) millis request).run s).1 = ((run d millis request).run s).1 :=
  ⟨lifecycle d millis request s, run_removingBy d millis request s⟩

/-- A daemon that creates a container and hangs from then on. -/
def hanging : Daemon (StateM Unit) where
  program := "docker"
  call := fun arguments _ _ =>
    if arguments[1]? = some "create" then pure (.ended ⟨some 0, Text.bytes "c0ffee", []⟩)
    else pure .timedOut

/- The removal is asked for though the start has timed out, and nothing is taken out. -/
example : ((run (watched hanging) 1000 ⟨"relief:1", "/data", ["relief"], [], [], ["map.bin"]⟩).run
    ⟨(), []⟩).2.exchanges.map (·.question.arguments[1]?) =
      [some "create", some "start", some "rm"] := by decide +kernel

end Container

end CachedRun
