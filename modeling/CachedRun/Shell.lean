import CachedRun.LocalRun
import CachedRun.Shell.Program

/-!
# The shell

**A stand-in.** This module and those below `CachedRun/Shell` take the place of the programs that a
host runs: a shell and the few tools that scripts call. They are here so that the executable can
answer for a whole machine (`CommandLine/Machine.lean`, the only module that uses them). No theorem
speaks of them, and none depends on them: what a run gives is a parameter wherever it is a subject of
a proof, as `Runner`, `Daemon` or `Platform`.

Local runs are computed here: a program is a shell script, a tool, or a script that is called by
name, and what it does is a function of its arguments, its input and the files. Nothing outside the
given tree is read or written.

A script runs with fuel, which bounds how deeply commands are nested and how often a loop goes
round. A script that needs more of it never comes to an end, and neither does one that reads an
endless file; both run out of time, as does one that sleeps too long.
-/

set_option autoImplicit false

namespace CachedRun.Shell

namespace State

/-- Runs a part whose failure has no consequence but its status. -/
def asCondition (s : State) (part : State → State) : State :=
  let t := part { s with isTested := true }
  { t with isTested := s.isTested }

/-- Stops the script if it stops on failure and there was one. -/
def checked (s : State) : State :=
  if s.options.contains 'e' && !s.isTested && s.status ≠ 0 && s.stop.isNone then s.halt .exit else s

/-- The state after the condition or the body of a loop, and whether the loop goes on. -/
def afterBody (s : State) : State × Bool :=
  match s.stop with
  | none => (s, true)
  | some (.leave n) => ({ s with stop := if n ≤ 1 then none else some (.leave (n - 1)) }, false)
  | some (.again n) =>
    if n ≤ 1 then ({ s with stop := none }, true) else (s.halt (.again (n - 1)), false)
  | some _ => (s, false)

/-- The state after a function or a file of commands. -/
def afterReturn (s : State) : State :=
  match s.stop with
  | some .returned => { s with stop := none }
  | _ => s

/-- Applies redirections up to the first that is refused. -/
def redirectAll (expand : Expander) : List Redirection → State → State × Bool
  | [], s => (s, true)
  | r :: rest, s =>
    let (target, s) := expandText expand r.target s
    match s.applyRedirection r target.raw with
    | (s, true) => redirectAll expand rest s
    | (s, false) => (s, false)

/-- Gives the streams back that a state had before redirections. -/
def restoring (before after : State) (rs : List Redirection) : State :=
  { after with
    out := before.out
    err := before.err
    stdin := if rs.any changesInput then before.stdin else after.stdin }

/-- Sets variables to the values of their words. -/
def assign (expand : Expander) : List (Raw × Word) → State → State
  | [], s => s
  | (name, w) :: rest, s =>
    let (value, s) := expandText expand w s
    assign expand rest (s.set name value.raw)

/-- Gives the variables of assignments back the values that they had before. -/
def restoreVariables (before : State) (after : State) (assignments : List (Raw × Word)) : State :=
  { assignments.foldl (fun s (name, _) =>
      match before.stored? name with
      | some value => s.set name value
      | none => s.unset name) after with
    exports := before.exports }

/-- Remembers a command that is not waited for, with the state that it will have left. -/
def remember (s t : State) (holds : Bool) : State :=
  let number := s.own + s.jobs.length + 1
  let ends := if t.stop = some .endless then Nat.pow 10 15 else max t.millis t.held
  let status := match t.stop with
    | some (.signal n) => 128 + n
    | _ => t.status
  { s with
    tree := t.tree, streams := t.streams, nextStream := t.nextStream, status := 0
    jobs := ⟨number, status, ends, holds⟩ :: s.jobs }

end State

/-- A script without the newlines at the end of its output. -/
def withoutLineEnds (s : Raw) : Raw := Text.dropEndWhile (· == '\n') s

/-- Whether a word runs a script when it is expanded. -/
def runsScript (w : Word) : Bool :=
  w.any fun
    | .substitution .. => true
    | _ => false

/-! ## Running -/

mutual

/-- Expands a piece of a word. -/
def expandPiece : Nat → Piece → State → List Part × State
  | 0, _, s => ([], s.halt .endless)
  | fuel + 1, piece, s =>
    if s.stop.isSome then ([], s)
    else match piece with
      | .plain text => ([.text (Marked.of false text)], s)
      | .quoted text => ([.text (Marked.of true text)], s)
      | .parameter isQuoted ['@'] [] => ([.list isQuoted s.parameters], s)
      | .parameter false ['*'] [] => ([.list false s.parameters], s)
      | .parameter isQuoted name operation => operate (expandPiece fuel) isQuoted name operation s
      | .substitution isQuoted script =>
        let (text, t) := s.catching fun s => atEnd fuel (runScript fuel script s.apart)
        let u := s.rejoin false t
        ([.ofValue isQuoted (withoutLineEnds text)],
          { u with status := s.status, substituted := u.status })
      | .arithmetic isQuoted expression =>
        let (text, s) := s.withWord (wordIn .braces expression) [] fun w s =>
          let (text, s) := expandText (expandPiece fuel) w s
          (text.raw, s)
        if s.stop.isSome then ([], s)
        else match Arithmetic.compute (fun name => (s.value? name).getD []) text with
          | .ok (n, assigned) =>
            ([.ofValue isQuoted (Decimal.intText n)],
              assigned.foldl (fun s (name, value) => s.set name value) s)
          | .error text => ([], s.fail (Raw.ofText text))
termination_by structural fuel => fuel

/-- Runs a command. -/
def exec : Nat → Command → State → State
  | 0, _, s => s.halt .endless
  | fuel + 1, c, s =>
    if s.stop.isSome then s
    else match c with
      | .sequence [] => s.withStatus 0
      | .sequence cs => cs.foldl (fun s c => exec fuel c s) s
      | .pipeline stages =>
        let (left, t) := stages.dropLast.foldl (fun (state : Option Supply × State) stage =>
          let (left, t) := state
          let (rest, u) := t.feeding s.millis fun t =>
            t.rejoin false (atEnd fuel (exec fuel stage t.apart))
          (some (left.getD rest), u)) (none, s)
        match stages.getLast? with
        | none => s
        | some stage =>
          let u := { t with millis := s.millis }
          let u := u.rejoin false (atEnd fuel (exec fuel stage u.apart))
          { u with stdin := left.getD s.stdin, millis := max t.millis u.millis }.checked
      | .negated c =>
        let t := s.asCondition (exec fuel c)
        t.withStatus (if t.status = 0 then 1 else 0)
      | .both a b =>
        let t := s.asCondition (exec fuel a)
        if t.status = 0 then exec fuel b t else t
      | .either a b =>
        let t := s.asCondition (exec fuel a)
        if t.status = 0 then t else exec fuel b t
      | .branch condition yes no =>
        let t := s.asCondition (exec fuel condition)
        if t.stop.isSome then t else if t.status = 0 then exec fuel yes t else exec fuel no t
      | .loop untilSuccess condition body =>
        let t := runLoop fuel untilSuccess condition body 0 { s with loops := s.loops + 1 }
        { t with loops := s.loops }
      | .each line name words body =>
        let s := { s with line }
        let (values, s) := match words with
          | some words => expandWords (expandPiece fuel) words s
          | none => (s.parameters, s)
        let inside := { s.withStatus 0 with loops := s.loops + 1 }
        let t := (values.foldl (fun (state : State × Bool) value =>
          let (s, goesOn) := state
          if goesOn then (exec fuel body (s.set name value)).afterBody else (s, false))
          (inside, s.stop.isNone)).1
        { t with loops := s.loops }
      | .choose line subject arms =>
        let (text, s) := expandText (expandPiece fuel) subject { s with line }
        let (found, s) := arms.foldl (fun (state : Option Command × State) arm =>
          if state.1.isSome then state
          else arm.1.foldl (fun (state : Option Command × State) pattern =>
            if state.1.isSome then state
            else
              let (pattern, s) := expandText (expandPiece fuel) pattern state.2
              (if pattern.isMatch text.raw then some arm.2 else none, s)) state) (none, s)
        match found with
        | some body => exec fuel body s
        | none => s.withStatus 0
      | .subshell c => (s.rejoin false (atEnd fuel (exec fuel c s.apart))).checked
      | .background c =>
        let t := { s.apart with stdin := .nothing }
        let streams := (State.redirectAll (expandPiece fuel) c.redirections t).1
        let isOpen (sink : Sink) : Bool := match sink with
          | .stream _ => true
          | _ => false
        s.remember (atEnd fuel (exec fuel c t)) (isOpen streams.out || isOpen streams.err)
      | .define name body =>
        { s with
          functions := (name, body) :: s.functions.filter fun f => f.1 ≠ name
          status := 0 }
      | .redirected line c rs =>
        match State.redirectAll (expandPiece fuel) rs { s with line } with
        | (t, true) => s.restoring (exec fuel c t) rs
        | (t, false) => (s.restoring t rs).checked
      | .simple line assignments words rs =>
        let (fields, s) := expandWords (expandPiece fuel) words { s with line }
        let isSpecial := fields.head?.any Command.isSpecial
        match State.redirectAll (expandPiece fuel) rs s with
        | (t, false) =>
          let t := s.restoring t rs
          if isSpecial then t.halt .exit else t.checked
        | (t, true) =>
          let u := State.assign (expandPiece fuel) assignments t
          match fields with
          | [] =>
            let runs := words.any runsScript || assignments.any fun a => runsScript a.2
            let u := if u.stop.isSome then u else u.withStatus (if runs then u.substituted else 0)
            (s.restoring u rs).checked
          | name :: arguments =>
            if name = "exec".toList ∧ arguments = [] then u.withStatus 0
            else
              let u := { u with exports := assignments.map Prod.fst ++ u.exports }
              let v := runCommand fuel false name arguments u
              let v := if isSpecial ∨ v.stop.isSome then v else t.restoreVariables v assignments
              (s.restoring v rs).checked
termination_by structural fuel => fuel

/-- Runs a loop that goes on while its condition succeeds, or until it does. Its status is that of
the last round, of which one is given. -/
def runLoop : Nat → Bool → Command → Command → Nat → State → State
  | 0, _, _, _, _, s => s.halt .endless
  | fuel + 1, untilSuccess, condition, body, status, s =>
    let (t, goesOn) := (s.asCondition (exec fuel condition)).afterBody
    if !goesOn then t
    else if decide (t.status = 0) = untilSuccess then t.withStatus status
    else
      let (u, goesOn) := (exec fuel body t).afterBody
      if goesOn then runLoop fuel untilSuccess condition body u.status u else u
termination_by structural fuel => fuel

/-- Runs a command with its arguments; it may be known not to be a function. -/
def runCommand : Nat → Bool → Raw → List Raw → State → State
  | 0, _, _, _, s => s.halt .endless
  | fuel + 1, isNoFunction, name, arguments, s =>
    if s.stop.isSome then s
    else match if isNoFunction then none else s.functions.find? fun f => f.1 = name with
      | some (_, body) =>
        let t := exec fuel body { s with parameters := arguments, loops := 0, hidden := some [] }
        { t.afterReturn.unhide with
          parameters := s.parameters, loops := s.loops, hidden := s.hidden }
      | none =>
        match String.ofList name, arguments with
        | "eval", arguments => s.naming name (runScript fuel (Text.joinWith [' '] arguments))
        | "exec", program :: arguments =>
          let t := s.naming name (runProgram fuel program arguments)
          { t.halt (t.stop.getD .exit) with traps := [] }
        | "command", ['-', 'v'] :: names => s.showCommands names
        | "command", name :: arguments => runCommand fuel true name arguments s
        | ".", path :: _ =>
          match if path.contains '/' then look s.tree s.directory path else .error .missing with
          | .ok (_, .file content) =>
            (s.naming path (runScript fuel (Raw.ofBytes content))).afterReturn
          | _ => s.naming name (·.fail (
              if path.contains '/' then "cannot open ".toList ++ path ++ ": No such file".toList
              else path ++ ": not found".toList))
        | text, arguments =>
          match s.builtin? text arguments with
          | some t =>
            match t.stop with
            | some (.signal n) =>
              match s.traps.find? fun trap => trap.1 = n with
              | some (_, action) => runScript fuel action { t with stop := none }
              | none => t
            | _ => t
          | none => runProgram fuel name arguments s
termination_by structural fuel => fuel

/-- Runs a program that the shell does not know by itself. -/
def runProgram : Nat → Raw → List Raw → State → State
  | 0, _, _, s => s.halt .endless
  | fuel + 1, name, arguments, s =>
    match s.scriptOf? name arguments with
    | some (script, inside) => s.rejoin true (atEnd fuel (runScript fuel script inside))
    | none =>
      match tool? (programName name), programName name, arguments.dropWhile (·.contains '=') with
      | some tool, _, _ => s.call tool arguments
      | none, "env", name :: own =>
        let t := (s.program s.name []).exportAll (arguments.takeWhile (·.contains '='))
        s.rejoin true (runProgram fuel name own t)
      | none, text, _ => s.otherProgram name text arguments
termination_by structural fuel => fuel

/-- Runs a script. -/
def runScript : Nat → Raw → State → State
  | 0, _, s => s.halt .endless
  | fuel + 1, script, s => runLines fuel false (Token.scan script) s
termination_by structural fuel => fuel

/-- Runs the lines of a script one after the other. A script without commands succeeds. -/
def runLines : Nat → Bool → List Token → State → State
  | 0, _, _, s => s.halt .endless
  | fuel + 1, hasRun, ts, s =>
    if s.stop.isSome then s
    else if Grammar.symbol ts = .fileEnd then if hasRun then s else s.withStatus 0
    else match Grammar.readLine ts with
      | .error flaw =>
        { s with line := flaw.line }.fail ("Syntax error: ".toList ++ Raw.ofText flaw.text)
      | .ok (none, ts) => runLines fuel hasRun ts s
      | .ok (some c, ts) => runLines fuel true ts (exec fuel c s)
termination_by structural fuel => fuel

/-- Runs what a process has asked to be run at its end. Its status stays unless it is changed. -/
def atEnd : Nat → State → State
  | 0, s => s.halt .endless
  | fuel + 1, s =>
    match s.stop, s.traps.find? fun trap => trap.1 = 0 with
    | some .endless, _ | some (.signal _), _ | _, none => s
    | stop, some (_, action) =>
      let t := runScript fuel action { s with stop := none, traps := s.traps.filter (·.1 ≠ 0) }
      if t.stop.isSome then t else { t with status := s.status, stop }
termination_by structural fuel => fuel

end

/-! ## Programs of the host -/

/-- The fuel of a program. -/
def fuelLimit : Nat := 10000

/-- What keeps a program from being started, if anything. -/
def startFlaw? (programs : List (String × Bytes)) (t : FileTree) (directory : Path)
    (l : LocalRun.Launch) : Option String :=
  let name := Raw.ofText l.program
  if (l.program :: l.arguments).any fun a => '\x00' ∈ a.toList then
    some "nul byte found in provided data"
  else match programs.find? fun p => p.1 = l.program with
    | some (_, content) =>
      if "#!".toList.isPrefixOf (Raw.ofBytes content) then none
      else some "Exec format error (os error 8)"
    | none =>
      if (tool? (programName name)).isSome
          || ["sh", "dash", "test", "[", "kill", "env"].contains (programName name) then none
      else if name.contains '/' then
        match look t directory name with
        | .ok _ => some "Permission denied (os error 13)"
        | .error flaw => some flaw.message
      else some FileTree.Flaw.missing.message

/-- What became of a program whose shell is in a state. -/
def outcomeOf (millis : Nat) (s : State) : Outcome :=
  let ended (exit : Option Int) : Outcome :=
    if millis ≤ max s.millis s.held then .timedOut
    else .ended ⟨exit, Raw.toBytes (s.written State.outStream),
      Raw.toBytes (s.written State.errStream)⟩
  match s.stop with
  | some .endless => .timedOut
  | some (.signal _) => ended none
  | _ => ended (some s.status)

/-- Starts a program in a directory of a tree. Scripts that can be called by name come with it. -/
def launch (programs : List (String × Bytes)) (directory : Path) (l : LocalRun.Launch)
    (t : FileTree) : Outcome × FileTree :=
  match startFlaw? programs t directory l with
  | some reason => (.notStarted reason, t)
  | none =>
    let name := Raw.ofText l.program
    let arguments := l.arguments.map Raw.ofText
    let s := State.start programs t directory (Raw.ofBytes l.stdin) name
    let s := match s.scriptOf? name arguments with
      | some (script, inside) => atEnd fuelLimit (runScript fuelLimit script inside)
      | none => runProgram fuelLimit name arguments s
    (outcomeOf l.millis s, s.tree)

end CachedRun.Shell
