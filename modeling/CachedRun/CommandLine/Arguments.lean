import CachedRun.Dict

/-!
# Arguments of the command line

A command is its name, the texts that it requires, and options. Each option is followed by its
value, whatever that looks like; of several values the last counts, except that outputs are
collected. `--verbose` may stand anywhere and is taken out first.

A required text must not look like an option, so a forgotten one is noticed at the option after it.
-/

set_option autoImplicit false

namespace CachedRun.CommandLine

/-- What may be chosen for a command. -/
structure Options where
  /-- The outputs that are asked for, in ascending order. -/
  outputs : List String
  runner : Option String
  cacheDirectory : Option String
  deriving Repr, DecidableEq

/-- Nothing is chosen. -/
def Options.empty : Options := ⟨[], none, none⟩

/-- What the program is asked to do. -/
inductive Command where
  | validate (config : String)
  | hash (config inputs : String) (options : Options)
  | run (config inputs : String) (options : Options)
  | readCache (key : String) (options : Options)
  | collect (options : Options)
  | version
  | help
  deriving Repr, DecidableEq

/-- Why arguments are not understood. -/
inductive Misuse where
  | missing (command what : String)
  | missingValue (option : String)
  | unexpected (argument : String)
  | tooManyOutputs
  | unknownCommand (name : String)
  deriving Repr, DecidableEq

def Misuse.message : Misuse → String
  | .missing command what => s!"{command} requires {what}"
  | .missingValue option => s!"{option} requires a value"
  | .unexpected argument => s!"unexpected argument: {argument}"
  | .tooManyOutputs => "read-cache accepts at most one --output"
  | .unknownCommand name => s!"unknown command: {name}"

/-- An option that takes a value. -/
inductive OptionName where
  | output
  | runner
  | cacheDirectory
  deriving Repr, DecidableEq

/-- The option of a name. -/
def OptionName.ofText? : String → Option OptionName
  | "--output" | "-o" => some .output
  | "--runner" | "-r" => some .runner
  | "--cache-dir" => some .cacheDirectory
  | _ => none

/-- Chooses a value for an option. -/
def Options.set (o : Options) (name : OptionName) (value : String) : Options :=
  match name with
  | .output => { o with outputs := sortedDistinct (o.outputs ++ [value]) }
  | .runner => { o with runner := some value }
  | .cacheDirectory => { o with cacheDirectory := some value }

/-- Reads options on top of those that are chosen already. -/
def Options.readOnto (o : Options) : List String → Except Misuse Options
  | [] => .ok o
  | [name] =>
    if (OptionName.ofText? name).isSome then .error (.missingValue name)
    else .error (.unexpected name)
  | name :: value :: rest =>
    match OptionName.ofText? name with
    | some option => readOnto (o.set option value) rest
    | none => .error (.unexpected name)

/-- Reads options. -/
def Options.read (arguments : List String) : Except Misuse Options :=
  Options.empty.readOnto arguments

/-- Takes the first text, which must not look like an option. -/
def required (command what : String) : List String → Except Misuse (String × List String)
  | [] => .error (.missing command what)
  | text :: rest =>
    if "--".toList.isPrefixOf text.toList then .error (.missing command what) else .ok (text, rest)

/-- Reads a command whose name has been taken. -/
def Command.ofName (name : String) (arguments : List String) : Except Misuse Command :=
  match name with
  | "validate" => do
    let (config, _) ← required name "<config.json>" arguments
    return .validate config
  | "hash" => do
    let (config, rest) ← required name "<config.json>" arguments
    let (inputs, rest) ← required name "<inputs.json>" rest
    return .hash config inputs (← Options.read rest)
  | "run" => do
    let (config, rest) ← required name "<config.json>" arguments
    let (inputs, rest) ← required name "<inputs.json>" rest
    return .run config inputs (← Options.read rest)
  | "read-cache" => do
    let (key, rest) ← required name "<key>" arguments
    let options ← Options.read rest
    if options.outputs.length > 1 then throw .tooManyOutputs
    return .readCache key options
  | "gc" => return .collect (← Options.read arguments)
  | "version" | "--version" | "-v" => .ok .version
  | "help" | "--help" | "-h" => .ok .help
  | name => .error (.unknownCommand name)

/-- Reads the arguments of the program; none at all ask for help. -/
def Command.ofArguments (arguments : List String) : Except Misuse Command :=
  match arguments.filter (· ≠ "--verbose") with
  | [] => .ok .help
  | name :: rest => Command.ofName name rest

end CachedRun.CommandLine
