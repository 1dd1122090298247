import CachedRun.CommandLine.Arguments
import CachedRun.Proofs.Dict
import CachedRun.Proofs.Result
import Mathlib.Data.List.Induction

/-!
# Arguments — what is understood, and that all of them are looked at safely

A list of options is understood exactly if it is made of pairs of an option and a value
(`Options.read_eq_ok_iff`), and it is refused for the first place where no such pair stands
(`Options.read_eq_error_iff`). The values are any texts, also such as look like options; so where a
pair begins is settled only from the left (`exists_choices`).

A command is understood exactly if its arguments are those that it is asked for with
(`Command.AskedBy`).

The arguments may also be looked at by position, and cut at fixed ones. `Command.byPosition` has no
answer if it looks or cuts where nothing is. A required text in front of a cut is what makes the cut
safe, and a loop that takes two steps at a time looks one text ahead only where it may
(`Command.byPosition_eq`, `Options.loopAt_eq`).
-/

set_option autoImplicit false

namespace CachedRun.CommandLine

open Result

/-! ## Options as they are written

A choice is written as a spelling of its option and a value, and some choices as a row of texts.
Reading goes the other way, and what it understands is exactly such rows. -/

/-- The ways to write an option. -/
def OptionName.spellings : OptionName → List String
  | .output => ["--output", "-o"]
  | .runner => ["--runner", "-r"]
  | .cacheDirectory => ["--cache-dir"]

theorem OptionName.ofText?_eq_some_iff {text : String} {option : OptionName} :
    ofText? text = some option ↔ text ∈ option.spellings := by
  constructor
  · intro h
    unfold ofText? at h
    split at h <;> cases h <;> decide
  · intro h
    cases option <;> simp only [spellings, List.mem_cons, List.not_mem_nil, or_false] at h
    · rcases h with rfl | rfl <;> rfl
    · rcases h with rfl | rfl <;> rfl
    · rw [h]
      rfl

theorem OptionName.ofText?_eq_none_iff {text : String} :
    ofText? text = none ↔ ∀ option : OptionName, text ∉ option.spellings := by
  simp only [Option.eq_none_iff_forall_ne_some, ne_eq, ofText?_eq_some_iff]

/-- An option with its value, as it is written. -/
structure Choice where
  spelling : String
  option : OptionName
  value : String
  spelled : spelling ∈ option.spellings

/-- The two arguments of a choice. -/
def Choice.words (c : Choice) : List String := [c.spelling, c.value]

/-- The values that are given for an option, in the order in which they are written. -/
def givenFor (option : OptionName) (choices : List Choice) : List String :=
  (choices.filter (·.option = option)).map Choice.value

/-- What choices amount to: all the outputs that are named, the last runner and the last
directory. -/
structure Choosing (choices : List Choice) (o : Options) : Prop where
  outputs : ∀ id, id ∈ o.outputs ↔ id ∈ givenFor .output choices
  ascending : o.outputs.Pairwise (· < ·)
  runner : o.runner = (givenFor .runner choices).getLast?
  cacheDirectory : o.cacheDirectory = (givenFor .cacheDirectory choices).getLast?

/-- Why options are not read on. -/
inductive Refused : List String → Misuse → Prop where
  /-- No option is written so, whatever follows. -/
  | unexpected {text : String} {rest : List String}
    (h : ∀ option : OptionName, text ∉ option.spellings) :
    Refused (text :: rest) (.unexpected text)
  /-- An option is the last argument. -/
  | missingValue {text : String} {option : OptionName} (h : text ∈ option.spellings) :
    Refused [text] (.missingValue text)

section Options

variable {option : OptionName} {choices : List Choice} {c : Choice} {o o' : Options}
  {arguments : List String} {misuse : Misuse}

theorem givenFor_append_of_eq (h : c.option = option) :
    givenFor option (choices ++ [c]) = givenFor option choices ++ [c.value] := by
  simp [givenFor, h]

theorem givenFor_append_of_ne (h : c.option ≠ option) :
    givenFor option (choices ++ [c]) = givenFor option choices := by
  simp [givenFor, h]

/-- Options are known by what they amount to. -/
theorem Choosing.unique (h : Choosing choices o) (h' : Choosing choices o') : o = o' := by
  have houtputs : o.outputs = o'.outputs := by
    have hperm : o.outputs.Perm o'.outputs := by
      refine (List.perm_ext_iff_of_nodup (h.ascending.imp ne_of_lt)
        (h'.ascending.imp ne_of_lt)).mpr fun id => ?_
      rw [h.outputs, h'.outputs]
    exact hperm.eq_of_pairwise (fun _ _ _ _ hab hba => absurd hba (lt_asymm hab)) h.ascending
      h'.ascending
  have hrunner : o.runner = o'.runner := h.runner.trans h'.runner.symm
  have hdirectory : o.cacheDirectory = o'.cacheDirectory :=
    h.cacheDirectory.trans h'.cacheDirectory.symm
  cases o
  cases o'
  rw [Options.mk.injEq]
  exact ⟨houtputs, hrunner, hdirectory⟩

theorem Choosing.nil : Choosing [] .empty where
  outputs _ := Iff.rfl
  ascending := List.Pairwise.nil
  runner := rfl
  cacheDirectory := rfl

/-- One more choice is set on top of those before it. -/
theorem Choosing.set (h : Choosing choices o) (c : Choice) :
    Choosing (choices ++ [c]) (o.set c.option c.value) := by
  -- A choice counts for its own option, and the other two are as before.
  cases hoption : c.option with
  | output =>
    refine ⟨fun id => ?_, pairwise_sortedDistinct, ?_, ?_⟩
    · rw [Options.set, mem_sortedDistinct, givenFor_append_of_eq hoption, List.mem_append,
        List.mem_append, h.outputs]
    · rw [givenFor_append_of_ne (by simp [hoption])]
      exact h.runner
    · rw [givenFor_append_of_ne (by simp [hoption])]
      exact h.cacheDirectory
  | runner =>
    refine ⟨fun id => ?_, h.ascending, ?_, ?_⟩
    · rw [givenFor_append_of_ne (by simp [hoption])]
      exact h.outputs id
    · rw [givenFor_append_of_eq hoption, List.getLast?_concat]
      rfl
    · rw [givenFor_append_of_ne (by simp [hoption])]
      exact h.cacheDirectory
  | cacheDirectory =>
    refine ⟨fun id => ?_, h.ascending, ?_, ?_⟩
    · rw [givenFor_append_of_ne (by simp [hoption])]
      exact h.outputs id
    · rw [givenFor_append_of_ne (by simp [hoption])]
      exact h.runner
    · rw [givenFor_append_of_eq hoption, List.getLast?_concat]
      rfl

/-- Sets choices one after the other. -/
def Options.setAll (o : Options) (choices : List Choice) : Options :=
  choices.foldl (fun o c => o.set c.option c.value) o

/-- **Choices that are set one after the other amount to all of them.** -/
theorem choosing_setAll (choices : List Choice) :
    Choosing choices (Options.empty.setAll choices) := by
  induction choices using List.reverseRecOn with
  | nil => exact .nil
  | append_singleton choices c ih =>
    rw [Options.setAll, List.foldl_append]
    exact ih.set c

theorem choosing_iff : Choosing choices o ↔ o = Options.empty.setAll choices := by
  constructor
  · intro h
    exact h.unique (choosing_setAll choices)
  · rintro rfl
    exact choosing_setAll choices

/-! ### Reading them

The reader goes by two texts at a time and sets what it has read on top of what it had. So the
induction is on the choices, with any options to begin with. -/

theorem Options.readOnto_choice (o : Options) (c : Choice) (rest : List String) :
    o.readOnto (c.words ++ rest) = (o.set c.option c.value).readOnto rest := by
  have hname := OptionName.ofText?_eq_some_iff.mpr c.spelled
  rw [Choice.words, List.cons_append, List.cons_append, List.nil_append, Options.readOnto, hname]

/-- Whole choices are read, and reading goes on behind them. -/
theorem Options.readOnto_choices (o : Options) (choices : List Choice) (rest : List String) :
    o.readOnto (choices.flatMap Choice.words ++ rest) = (o.setAll choices).readOnto rest := by
  induction choices generalizing o with
  | nil => rfl
  | cons c choices ih =>
    rw [List.flatMap_cons, List.append_assoc, Options.readOnto_choice, ih]
    rfl

theorem Refused.readOnto (h : Refused arguments misuse) (o : Options) :
    o.readOnto arguments = .error misuse := by
  cases h with
  | missingValue h =>
    rw [Options.readOnto, OptionName.ofText?_eq_some_iff.mpr h]
    rfl
  | @unexpected text rest h =>
    have hnone := OptionName.ofText?_eq_none_iff.mpr h
    cases rest with
    | nil =>
      rw [Options.readOnto, hnone]
      rfl
    | cons value rest => rw [Options.readOnto, hnone]

/-- Arguments are whole choices, or whole choices in front of something that is refused. -/
theorem exists_choices (arguments : List String) : ∃ (choices : List Choice) (rest : List String),
    arguments = choices.flatMap Choice.words ++ rest ∧
      (rest = [] ∨ ∃ misuse, Refused rest misuse) := by
  -- Two arguments at a time, as they are read; what is left at the end is none or one.
  induction arguments using List.twoStepInduction with
  | nil => exact ⟨[], [], rfl, .inl rfl⟩
  | singleton text =>
    refine ⟨[], [text], rfl, .inr ?_⟩
    cases hname : OptionName.ofText? text with
    | some option => exact ⟨_, .missingValue (OptionName.ofText?_eq_some_iff.mp hname)⟩
    | none => exact ⟨_, .unexpected (OptionName.ofText?_eq_none_iff.mp hname)⟩
  | cons_cons text value rest ih _ =>
    cases hname : OptionName.ofText? text with
    | some option =>
      obtain ⟨choices, last, hrest, hlast⟩ := ih
      refine ⟨⟨text, option, value, OptionName.ofText?_eq_some_iff.mp hname⟩ :: choices, last, ?_,
        hlast⟩
      rw [hrest]
      rfl
    | none =>
      exact ⟨[], _, rfl, .inr ⟨_, .unexpected (OptionName.ofText?_eq_none_iff.mp hname)⟩⟩

/-- **Options are read exactly if they are pairs of an option and a value.** -/
theorem Options.read_eq_ok_iff : Options.read arguments = .ok o ↔
    ∃ choices, arguments = choices.flatMap Choice.words ∧ Choosing choices o := by
  constructor
  · intro h
    obtain ⟨choices, rest, rfl, rfl | ⟨misuse, hrefused⟩⟩ := exists_choices arguments
    · rw [Options.read, Options.readOnto_choices] at h
      cases h
      exact ⟨choices, List.append_nil _, choosing_setAll choices⟩
    · rw [Options.read, Options.readOnto_choices, hrefused.readOnto] at h
      cases h
  · rintro ⟨choices, rfl, hchosen⟩
    rw [Options.read, ← List.append_nil (choices.flatMap _), Options.readOnto_choices,
      choosing_iff.mp hchosen]
    rfl

/-- **All others are refused at the first place that is not such a pair.** -/
theorem Options.read_eq_error_iff : Options.read arguments = .error misuse ↔
    ∃ choices rest, arguments = List.flatMap Choice.words choices ++ rest ∧
      Refused rest misuse := by
  constructor
  · intro h
    obtain ⟨choices, rest, rfl, rfl | ⟨misuse', hrefused⟩⟩ := exists_choices arguments
    · rw [Options.read, Options.readOnto_choices] at h
      cases h
    · rw [Options.read, Options.readOnto_choices, hrefused.readOnto] at h
      cases h
      exact ⟨choices, rest, rfl, hrefused⟩
  · rintro ⟨choices, rest, rfl, hrefused⟩
    rw [Options.read, Options.readOnto_choices, hrefused.readOnto]

theorem Options.exists_misuse_iff : (∃ misuse, Options.read arguments = .error misuse) ↔
    ¬ ∃ choices, arguments = List.flatMap Choice.words choices := by
  constructor
  · rintro ⟨misuse, hmisuse⟩ ⟨choices, hchoices⟩
    have hread := Options.read_eq_ok_iff.mpr ⟨choices, hchoices, choosing_setAll choices⟩
    rw [hmisuse] at hread
    cases hread
  · intro h
    cases hread : Options.read arguments with
    | error misuse => exact ⟨misuse, rfl⟩
    | ok o =>
      obtain ⟨choices, hchoices, -⟩ := Options.read_eq_ok_iff.mp hread
      exact absurd ⟨choices, hchoices⟩ h

end Options

/-! ## Commands as they are written

`Command.AskedBy` says with which arguments a command is asked for, without any reading. Each
command is read exactly from those. -/

/-- A text that does not look like an option. -/
def IsPlain (text : String) : Prop := ¬ "--".toList <+: text.toList

/-- The arguments that a command is asked for with. -/
def Command.AskedBy (arguments : List String) : Command → Prop
  | .validate config => IsPlain config ∧ ∃ rest, arguments = "validate" :: config :: rest
  | .hash config inputs o => IsPlain config ∧ IsPlain inputs ∧ ∃ choices, Choosing choices o ∧
    arguments = "hash" :: config :: inputs :: choices.flatMap Choice.words
  | .run config inputs o => IsPlain config ∧ IsPlain inputs ∧ ∃ choices, Choosing choices o ∧
    arguments = "run" :: config :: inputs :: choices.flatMap Choice.words
  | .readCache key o => IsPlain key ∧ o.outputs.length ≤ 1 ∧ ∃ choices, Choosing choices o ∧
    arguments = "read-cache" :: key :: choices.flatMap Choice.words
  | .collect o => ∃ choices, Choosing choices o ∧ arguments = "gc" :: choices.flatMap Choice.words
  | .version => ∃ name ∈ ["version", "--version", "-v"], ∃ rest, arguments = name :: rest
  | .help => arguments = [] ∨ ∃ name ∈ ["help", "--help", "-h"], ∃ rest, arguments = name :: rest

/-- Reads a request: a configuration, its inputs and options. -/
def requestOf (command : String) (arguments : List String)
    (make : String → String → Options → Command) : Except Misuse Command := do
  let (config, rest) ← required command "<config.json>" arguments
  let (inputs, rest) ← required command "<inputs.json>" rest
  return make config inputs (← Options.read rest)

section Commands

variable {command what text config inputs key : String} {arguments rest : List String}
  {make : String → String → Options → Command} {c : Command} {o : Options}

theorem required_eq_ok_iff : required command what arguments = .ok (text, rest) ↔
    arguments = text :: rest ∧ IsPlain text := by
  cases arguments with
  | nil => simp [required]
  | cons first arguments =>
    rw [required, IsPlain, ← List.isPrefixOf_iff_prefix]
    -- What looks like an option is refused, and anything else is taken as it is.
    split
    · rename_i hoption
      constructor
      · intro h
        cases h
      · rintro ⟨h, hplain⟩
        cases h
        exact absurd hoption hplain
    · rename_i hplain
      constructor
      · intro h
        cases h
        exact ⟨rfl, hplain⟩
      · rintro ⟨h, -⟩
        cases h
        rfl

theorem requestOf_eq_ok_iff : requestOf command arguments make = .ok c ↔
    ∃ config inputs o choices, IsPlain config ∧ IsPlain inputs ∧ Choosing choices o ∧
      arguments = config :: inputs :: choices.flatMap Choice.words ∧ c = make config inputs o := by
  constructor
  · intro h
    obtain ⟨⟨config, behind⟩, hfirst, hrest⟩ := bind_eq_ok_iff.mp h
    obtain ⟨⟨inputs, options⟩, hsecond, hrest⟩ := bind_eq_ok_iff.mp hrest
    obtain ⟨o, ho, hmade⟩ := bind_eq_ok_iff.mp hrest
    obtain ⟨rfl, hconfig⟩ := required_eq_ok_iff.mp hfirst
    obtain ⟨rfl, hinputs⟩ := required_eq_ok_iff.mp hsecond
    obtain ⟨choices, rfl, hchosen⟩ := Options.read_eq_ok_iff.mp ho
    cases hmade
    exact ⟨config, inputs, o, choices, hconfig, hinputs, hchosen, rfl, rfl⟩
  · rintro ⟨config, inputs, o, choices, hconfig, hinputs, hchosen, rfl, rfl⟩
    refine bind_eq_ok_iff.mpr ⟨_, required_eq_ok_iff.mpr ⟨rfl, hconfig⟩, ?_⟩
    refine bind_eq_ok_iff.mpr ⟨_, required_eq_ok_iff.mpr ⟨rfl, hinputs⟩, ?_⟩
    exact bind_eq_ok_iff.mpr ⟨o, Options.read_eq_ok_iff.mpr ⟨choices, rfl, hchosen⟩, rfl⟩

theorem Command.askedBy_of_ofName {name : String} (h : Command.ofName name arguments = .ok c) :
    c.AskedBy (name :: arguments) := by
  unfold Command.ofName at h
  -- By the names in the order of the table: four with arguments of their own, the collection, and
  -- the spellings of the version and of the help.
  split at h
  · obtain ⟨⟨config, rest⟩, hfirst, hmade⟩ := bind_eq_ok_iff.mp h
    obtain ⟨rfl, hconfig⟩ := required_eq_ok_iff.mp hfirst
    cases hmade
    exact ⟨hconfig, rest, rfl⟩
  · obtain ⟨config, inputs, o, choices, hconfig, hinputs, hchosen, rfl, rfl⟩ :=
      requestOf_eq_ok_iff.mp h
    exact ⟨hconfig, hinputs, choices, hchosen, rfl⟩
  · obtain ⟨config, inputs, o, choices, hconfig, hinputs, hchosen, rfl, rfl⟩ :=
      requestOf_eq_ok_iff.mp h
    exact ⟨hconfig, hinputs, choices, hchosen, rfl⟩
  · obtain ⟨⟨key, rest⟩, hfirst, hrest⟩ := bind_eq_ok_iff.mp h
    obtain ⟨rfl, hkey⟩ := required_eq_ok_iff.mp hfirst
    obtain ⟨o, ho, hmade⟩ := bind_eq_ok_iff.mp hrest
    obtain ⟨choices, rfl, hchosen⟩ := Options.read_eq_ok_iff.mp ho
    dsimp only at hmade
    split at hmade
    · cases hmade
    · rename_i hone
      cases hmade
      exact ⟨hkey, Nat.le_of_not_lt hone, choices, hchosen, rfl⟩
  · obtain ⟨o, ho, hmade⟩ := bind_eq_ok_iff.mp h
    obtain ⟨choices, rfl, hchosen⟩ := Options.read_eq_ok_iff.mp ho
    cases hmade
    exact ⟨choices, hchosen, rfl⟩
  case h_6 | h_7 | h_8 =>
    cases h
    exact ⟨_, by simp, arguments, rfl⟩
  case h_9 | h_10 | h_11 =>
    cases h
    exact .inr ⟨_, by simp, arguments, rfl⟩
  case h_12 => cases h

theorem Command.ofName_of_askedBy {name : String} (h : c.AskedBy (name :: arguments)) :
    Command.ofName name arguments = .ok c := by
  cases c with
  | validate config =>
    obtain ⟨hconfig, rest, hwhole⟩ := h
    cases hwhole
    exact bind_eq_ok_iff.mpr ⟨_, required_eq_ok_iff.mpr ⟨rfl, hconfig⟩, rfl⟩
  | hash config inputs o =>
    obtain ⟨hconfig, hinputs, choices, hchosen, hwhole⟩ := h
    cases hwhole
    exact requestOf_eq_ok_iff.mpr ⟨_, _, _, choices, hconfig, hinputs, hchosen, rfl, rfl⟩
  | run config inputs o =>
    obtain ⟨hconfig, hinputs, choices, hchosen, hwhole⟩ := h
    cases hwhole
    exact requestOf_eq_ok_iff.mpr ⟨_, _, _, choices, hconfig, hinputs, hchosen, rfl, rfl⟩
  | readCache key o =>
    obtain ⟨hkey, hone, choices, hchosen, hwhole⟩ := h
    cases hwhole
    refine bind_eq_ok_iff.mpr ⟨_, required_eq_ok_iff.mpr ⟨rfl, hkey⟩, ?_⟩
    refine bind_eq_ok_iff.mpr ⟨o, Options.read_eq_ok_iff.mpr ⟨choices, rfl, hchosen⟩, ?_⟩
    exact if_neg (Nat.not_lt.mpr hone)
  | collect o =>
    obtain ⟨choices, hchosen, hwhole⟩ := h
    cases hwhole
    exact bind_eq_ok_iff.mpr ⟨o, Options.read_eq_ok_iff.mpr ⟨choices, rfl, hchosen⟩, rfl⟩
  | version =>
    obtain ⟨_, hname, rest, hwhole⟩ := h
    cases hwhole
    simp only [List.mem_cons, List.not_mem_nil, or_false] at hname
    -- Three spellings each, and every one is a row of the table.
    rcases hname with rfl | rfl | rfl <;> rfl
  | help =>
    obtain hwhole | ⟨_, hname, rest, hwhole⟩ := h
    · cases hwhole
    · cases hwhole
      simp only [List.mem_cons, List.not_mem_nil, or_false] at hname
      rcases hname with rfl | rfl | rfl <;> rfl

theorem Command.askedBy_nil_iff : c.AskedBy [] ↔ c = .help := by
  cases c <;> simp [Command.AskedBy]

/-- **A command is understood exactly if its arguments are those that it is asked for with**, but
for `--verbose`, which may stand anywhere. -/
theorem Command.ofArguments_eq_ok_iff : Command.ofArguments arguments = .ok c ↔
    c.AskedBy (arguments.filter (· ≠ "--verbose")) := by
  rw [Command.ofArguments]
  generalize arguments.filter (· ≠ "--verbose") = words
  cases words with
  | nil => rw [Command.askedBy_nil_iff, Except.ok.injEq, eq_comm]
  | cons name rest => exact ⟨Command.askedBy_of_ofName, Command.ofName_of_askedBy⟩

end Commands

/-! ## Arguments by position

Here the arguments are a list that is looked at by index, and a look beyond its end has no result
at all. It is shown that this never happens, and that the result is that of reading from the front.
-/

/-- An attempt that has no result at all if it looks or cuts where nothing is. -/
abbrev Looking : Type → Type := ExceptT Misuse Option

/-- The argument at a position, which must be there. -/
def textAt (arguments : List String) (i : Nat) : Looking String :=
  ExceptT.mk (arguments[i]?.map .ok)

/-- The arguments from a position on, which must not lie behind their end. -/
def textsFrom (arguments : List String) (i : Nat) : Looking (List String) :=
  ExceptT.mk (if i ≤ arguments.length then some (.ok (arguments.drop i)) else none)

/-- The required text at a position, where there may be none. -/
def requiredAt (command what : String) (arguments : List String) (i : Nat) :
    Except Misuse String :=
  match arguments[i]?.filter fun text => !"--".toList.isPrefixOf text.toList with
  | some text => .ok text
  | none => .error (.missing command what)

/-- Reads options from a position on, two arguments at a time. -/
def Options.loopAt (arguments : List String) (i : Nat) (o : Options) : Looking Options :=
  if i < arguments.length then do
    let name ← textAt arguments i
    match OptionName.ofText? name, arguments[i + 1]? with
    | none, _ => throw (.unexpected name)
    | some _, none => throw (.missingValue name)
    | some option, some value => loopAt arguments (i + 2) (o.set option value)
  else return o
termination_by arguments.length - i

/-- Reads a request, whose options are cut off at the third position. -/
def requestAt (command : String) (arguments : List String)
    (make : String → String → Options → Command) : Looking Command := do
  let config ← requiredAt command "<config.json>" arguments 1
  let inputs ← requiredAt command "<inputs.json>" arguments 2
  let rest ← textsFrom arguments 3
  return make config inputs (← Options.loopAt rest 0 .empty)

/-- Reads the arguments of the program by position. -/
def Command.byPosition (arguments : List String) : Looking Command :=
  let arguments := arguments.filter (· ≠ "--verbose")
  match arguments[0]? with
  | none => return .help
  | some name =>
    match name with
    | "validate" => return .validate (← requiredAt name "<config.json>" arguments 1)
    | "hash" => requestAt name arguments .hash
    | "run" => requestAt name arguments .run
    | "read-cache" => do
      let key ← requiredAt name "<key>" arguments 1
      let options ← Options.loopAt (← textsFrom arguments 2) 0 .empty
      if options.outputs.length > 1 then throw .tooManyOutputs
      return .readCache key options
    | "gc" => return .collect (← Options.loopAt (← textsFrom arguments 1) 0 .empty)
    | "version" | "--version" | "-v" => return .version
    | "help" | "--help" | "-h" => return .help
    | name => throw (.unknownCommand name)

section Positions

variable {α β : Type} {command what text : String} {arguments : List String} {i : Nat}
  {make : String → String → Options → Command}

/-- What follows a result is looked at only if there is one. -/
theorem run_bind_lift {x : Except Misuse α} {f : α → Looking β} {g : α → Except Misuse β}
    (h : ∀ a, x = .ok a → (f a).run = some (g a)) :
    (do let a ← x; f a : Looking β).run = some (x >>= g) := by
  cases x with
  | error misuse => rfl
  | ok a => exact h a rfl

theorem textAt_of_lt (h : i < arguments.length) : textAt arguments i = pure arguments[i] := by
  rw [textAt, List.getElem?_eq_getElem h]
  rfl

theorem textsFrom_of_le (h : i ≤ arguments.length) :
    textsFrom arguments i = pure (arguments.drop i) := by
  rw [textsFrom, if_pos h]
  rfl

/-- A required text is there. -/
theorem lt_length_of_requiredAt (h : requiredAt command what arguments i = .ok text) :
    i < arguments.length := by
  by_contra hout
  rw [requiredAt, List.getElem?_eq_none (Nat.le_of_not_lt hout)] at h
  cases h

/-- The first of the arguments from a position on is the one at that position. -/
theorem required_drop (command what : String) (arguments : List String) (i : Nat) :
    required command what (arguments.drop i) =
      (fun text => (text, arguments.drop (i + 1))) <$> requiredAt command what arguments i := by
  rw [requiredAt]
  by_cases h : i < arguments.length
  · rw [List.drop_eq_getElem_cons h, List.getElem?_eq_getElem h, required, Option.filter_some]
    cases "--".toList.isPrefixOf arguments[i].toList <;> rfl
  · rw [List.drop_eq_nil_of_le (Nat.le_of_not_lt h),
      List.getElem?_eq_none (Nat.le_of_not_lt h)]
    rfl

/-- **A loop that takes two arguments at a time reads all of them**, and looks only at arguments
that are there. -/
theorem Options.loopAt_eq (arguments : List String) (i : Nat) (o : Options) :
    (Options.loopAt arguments i o).run = some (o.readOnto (arguments.drop i)) := by
  induction i, o using Options.loopAt.induct arguments with
  | case1 i o h ih =>
    rw [Options.loopAt, if_pos h, textAt_of_lt h, pure_bind, List.drop_eq_getElem_cons h]
    by_cases hnext : i + 1 < arguments.length
    · rw [List.getElem?_eq_getElem hnext, List.drop_eq_getElem_cons hnext, Options.readOnto]
      cases OptionName.ofText? arguments[i] with
      | none => rfl
      | some option => exact ih option arguments[i + 1]
    · rw [List.getElem?_eq_none (Nat.le_of_not_lt hnext),
        List.drop_eq_nil_of_le (Nat.le_of_not_lt hnext), Options.readOnto]
      cases OptionName.ofText? arguments[i] with
      | none => rfl
      | some option => rfl
  | case2 i o h =>
    rw [Options.loopAt, if_neg h, List.drop_eq_nil_of_le (Nat.le_of_not_lt h)]
    rfl

/-- Options that are cut off where the arguments may be cut are read like those that are left. -/
theorem run_loopAt_textsFrom {f : Options → Looking β} {g : Options → Except Misuse β}
    (h : i ≤ arguments.length) (hf : ∀ o, (f o).run = some (g o)) :
    (do let o ← Options.loopAt (← textsFrom arguments i) 0 .empty; f o : Looking β).run =
      some (Options.read (arguments.drop i) >>= g) := by
  have hloop : Options.loopAt (arguments.drop i) 0 .empty =
      (Options.read (arguments.drop i) : Except Misuse Options) :=
    Options.loopAt_eq (arguments.drop i) 0 .empty
  rw [textsFrom_of_le h, pure_bind, hloop]
  exact run_bind_lift fun o _ => hf o

theorem run_requestAt (command : String) (arguments : List String)
    (make : String → String → Options → Command) :
    (requestAt command arguments make).run =
      some (requestOf command (arguments.drop 1) make) := by
  rw [requestOf, required_drop, bind_map_left]
  refine run_bind_lift fun config hconfig => ?_
  dsimp only
  rw [required_drop, bind_map_left]
  refine run_bind_lift fun inputs hinputs => ?_
  exact run_loopAt_textsFrom (lt_length_of_requiredAt hinputs) fun o => rfl

/-- **Looking at arguments by position never leaves them**, and it understands the same. -/
theorem Command.byPosition_eq (arguments : List String) :
    (Command.byPosition arguments).run = some (Command.ofArguments arguments) := by
  rw [Command.byPosition, Command.ofArguments]
  generalize arguments.filter (· ≠ "--verbose") = words
  cases words with
  | nil => rfl
  | cons name rest =>
    dsimp only [List.getElem?_cons_zero]
    split
    · change _ = some (required _ _ (("validate" :: rest).drop 1) >>= _)
      rw [required_drop, bind_map_left]
      exact run_bind_lift fun config _ => rfl
    · exact run_requestAt "hash" ("hash" :: rest) .hash
    · exact run_requestAt "run" ("run" :: rest) .run
    · change _ = some (required _ _ (("read-cache" :: rest).drop 1) >>= _)
      rw [required_drop, bind_map_left]
      refine run_bind_lift fun key hkey => ?_
      -- The key is there, so the arguments may be cut behind it.
      refine run_loopAt_textsFrom (lt_length_of_requiredAt hkey) fun o => ?_
      dsimp only
      split <;> rfl
    · exact run_loopAt_textsFrom (i := 1) (Nat.le_add_left 1 rest.length) fun o => rfl
    case h_6 | h_7 | h_8 | h_9 | h_10 | h_11 => rfl
    case h_12 =>
      unfold Command.ofName
      split <;> first | rfl | contradiction

end Positions

/-! ## The arguments of the program -/

/-- What it is to understand arguments exactly: as those of the program, and as options alone. -/
structure UnderstoodExactly (arguments : List String) : Prop where
  /-- There is an answer also where they are looked at by position, and it is the same. -/
  looked : (Command.byPosition arguments).run = some (Command.ofArguments arguments)
  command : ∀ c, Command.ofArguments arguments = .ok c ↔
    c.AskedBy (arguments.filter (· ≠ "--verbose"))
  optionsLooked : (Options.loopAt arguments 0 .empty).run = some (Options.read arguments)
  options : ∀ o, Options.read arguments = .ok o ↔
    ∃ choices, arguments = choices.flatMap Choice.words ∧ Choosing choices o
  /-- Every other list is refused. -/
  refused : (∃ misuse, Options.read arguments = .error misuse) ↔
    ¬ ∃ choices, arguments = List.flatMap Choice.words choices
  /-- The misuse that is named is the first one. -/
  misuse : ∀ misuse, Options.read arguments = .error misuse ↔
    ∃ choices rest, arguments = List.flatMap Choice.words choices ++ rest ∧ Refused rest misuse

/-- **All arguments are understood exactly, or refused**, and none is looked at that is not there. A
command is described by the arguments that ask for it, and the loop over the positions is shown to
read them from the front. -/
theorem arguments_understood (arguments : List String) : UnderstoodExactly arguments where
  looked := Command.byPosition_eq arguments
  command _ := Command.ofArguments_eq_ok_iff
  optionsLooked := Options.loopAt_eq arguments 0 .empty
  options _ := Options.read_eq_ok_iff
  refused := Options.exists_misuse_iff
  misuse _ := Options.read_eq_error_iff

-- What stands where a value is due is that value, whatever it looks like.
example : Command.ofArguments ["hash", "a.json", "b.json", "-o", "--runner", "-r", "local",
    "--verbose", "--runner", "docker"] =
      .ok (.hash "a.json" "b.json" ⟨["--runner"], some "docker", none⟩) := by rfl

end CachedRun.CommandLine
