import ClassDiagram.Diagram.Preview
import ClassDiagram.Settings

/-!
# Command-line arguments

An invocation is a command with its options. Options are written with their long
or short names, a value in the next argument or behind an equals sign, and short
options in one cluster. Inputs take all values up to the next option and may be
given again; every other option may be given once. The log options stand before
or behind the command, all others behind it.

Any argument that does not fit is a usage error. The version is told as soon as
it is asked for, if all is well up to there.
-/

namespace ClassDiagram.Command

/-- How log lines look. -/
inductive LogFormat where
  | compact
  | pretty
  | json
  deriving DecidableEq, Repr

namespace LogFormat

/-- The name of the format. -/
def name : LogFormat → String
  | compact => "compact"
  | pretty => "pretty"
  | json => "json"

/-- The format of a name. -/
def named (given : String) : Except UnknownChoice LogFormat :=
  chooseByName "log format" [("compact", compact), ("pretty", pretty), ("json", json)] given

end LogFormat

/-- The options of all commands. -/
inductive Switch where
  | verbose
  | logLevel
  | logFormat
  | version
  | input
  | name
  | positionalModifiers
  | interfaceExtends
  | dedupeEdges
  | pretty
  | style
  | output
  deriving DecidableEq, Repr

/-- How many values an option takes. -/
inductive Arity where
  | none
  | one
  | many
  deriving DecidableEq, Repr

namespace Switch

/-- The long name. -/
def long : Switch → String
  | verbose => "verbose"
  | logLevel => "log-level"
  | logFormat => "log-format"
  | version => "version"
  | input => "input"
  | name => "name"
  | positionalModifiers => "positional-modifiers"
  | interfaceExtends => "interface-extends"
  | dedupeEdges => "dedupe-edges"
  | pretty => "pretty"
  | style => "style"
  | output => "output"

/-- The short name, if there is one. -/
def short? : Switch → Option Char
  | verbose => some 'v'
  | version => some 'V'
  | input => some 'i'
  | output => some 'o'
  | _ => none

/-- The number of values. -/
def arity : Switch → Arity
  | verbose | version | positionalModifiers | interfaceExtends | pretty => .none
  | logLevel | logFormat | name | dedupeEdges | style | output => .one
  | input => .many

/-- True if the option may have this value. A path is never empty. -/
def admits (switch : Switch) (value : String) : Bool :=
  match switch with
  | logLevel => ["trace", "debug", "info", "warn", "error"].contains value
  | logFormat => ["compact", "pretty", "json"].contains value
  | dedupeEdges => ["batch", "per-edge"].contains value
  | style => ["ascii", "unicode"].contains value
  | input | output => value != ""
  | _ => true

/-- The options that every command has. -/
def shared : List Switch := [verbose, logLevel, logFormat]

/-- The options before the command. -/
def leading : List Switch := version :: shared

/-- The options that say what is read and how. -/
def reading : List Switch :=
  shared ++ [input, name, positionalModifiers, interfaceExtends, dedupeEdges]

end Switch

/-- The commands. -/
inductive Verb where
  | parse
  | diagram
  | preview
  | validate
  deriving DecidableEq, Repr

namespace Verb

/-- The word for a command. -/
def word : Verb → String
  | parse => "parse"
  | diagram => "diagram"
  | preview => "preview"
  | validate => "validate"

/-- The command of a word. -/
def named? (given : String) : Option Verb :=
  [parse, diagram, preview, validate].find? fun verb => verb.word == given

/-- The options of a command. -/
def switches : Verb → List Switch
  | parse | diagram => Switch.reading ++ [.pretty, .output]
  | preview => Switch.reading ++ [.style, .output]
  | validate => Switch.reading

end Verb

/-- An option as it was given, with its values. -/
structure Occurrence where
  switch : Switch
  values : List String
  deriving DecidableEq, Repr

/-- What an argument says. -/
inductive Item where
  /-- An option, with the value that is attached to it. -/
  | option (switch : Switch) (attached : Option String)
  | word (value : String)
  /-- The end of all options, `--`. -/
  | escape
  /-- An option that there is not, or that takes no value. -/
  | unknown
  deriving DecidableEq, Repr

/-- The option of a name, which has to take a value if one is attached. -/
def Item.ofSwitch (found : Option Switch) (attached : Option String) : Item :=
  match found with
  | none => .unknown
  | some switch =>
    if attached.isSome && switch.arity = .none then .unknown else .option switch attached

/-- The options in a cluster of short names. What stands behind an option with a
value is its value, without an equals sign in front. -/
def cluster (known : List Switch) : Text → List Item
  | [] => []
  | c :: t =>
    match known.find? fun switch => switch.short? == some c with
    | none => [.unknown]
    | some switch =>
      if switch.arity = .none then .option switch none :: cluster known t
      else
        match t with
        | [] => [.option switch none]
        | '=' :: value => [.option switch (some (String.ofList value))]
        | value => [.option switch (some (String.ofList value))]

/-- What an argument says where certain options are known. A single hyphen is a
word. -/
def items (known : List Switch) (argument : String) : List Item :=
  match argument.toList with
  | ['-', '-'] => [.escape]
  | '-' :: '-' :: long =>
    let name := String.ofList (long.takeWhile (· != '='))
    let attached :=
      match long.dropWhile (· != '=') with
      | _ :: value => some (String.ofList value)
      | [] => none
    [.ofSwitch (known.find? fun switch => switch.long == name) attached]
  | '-' :: c :: t => cluster known (c :: t)
  | _ => [.word argument]

/-- The words in front of further items, at most one of them if so limited. -/
def takeWords (single : Bool) : List Item → List String × List Item
  | .word value :: rest =>
    if single then ([value], rest)
    else (value :: (takeWords false rest).1, (takeWords false rest).2)
  | rest => ([], rest)

theorem length_takeWords (single : Bool) (given : List Item) :
    (takeWords single given).2.length ≤ given.length := by
  fun_induction takeWords single given with
  | case1 value rest => simp
  | case2 value rest ih =>
    simp only [List.length_cons] at ih ⊢
    omega
  | case3 => simp

/-- The options that items give, each with the number of values that it takes.
A word that belongs to no option does not fit, nor does anything behind the end
of all options. -/
def occurrences? : List Item → Option (List Occurrence)
  | [] => some []
  | [.escape] => some []
  | .option switch (some value) :: rest =>
    (occurrences? rest).map (⟨switch, [value]⟩ :: ·)
  | .option switch none :: rest =>
    if switch.arity = .none then (occurrences? rest).map (⟨switch, []⟩ :: ·)
    else
      let taken := takeWords (switch.arity = .one) rest
      if taken.1.isEmpty then none
      else (occurrences? taken.2).map (⟨switch, taken.1⟩ :: ·)
  | _ => none
termination_by given => given.length
decreasing_by
  · simp
  · simp
  · have := length_takeWords (switch.arity = .one) rest
    simp only [List.length_cons]
    omega

/-- True if the options have values that they admit, and none but inputs is given
twice. -/
def areProper (given : List Occurrence) : Bool :=
  (given.all fun o => o.values.all o.switch.admits) &&
    ((given.map Occurrence.switch).filter (· != .input)).all fun switch =>
      (given.filter fun o => o.switch == switch).length == 1

/-- What a command does with what it has read. -/
inductive Action where
  | parse (pretty : Bool) (output : Option String)
  | diagram (pretty : Bool) (output : Option String)
  | preview (style : BoxStyle) (output : Option String)
  | validate
  deriving DecidableEq, Repr

/-- A command with its options. -/
structure Invocation where
  verbose : Bool
  inputs : List String
  /-- The name of the type that standard input declares. -/
  name : Option String
  settings : Settings
  action : Action
  deriving DecidableEq, Repr

/-- What the arguments ask for. -/
inductive Request where
  | version
  | run (invocation : Invocation)
  deriving DecidableEq, Repr

namespace Invocation

/-- True if an option is given. -/
def has (given : List Occurrence) (switch : Switch) : Bool :=
  given.any fun o => o.switch == switch

/-- The value of an option. -/
def value? (given : List Occurrence) (switch : Switch) : Option String :=
  (given.find? fun o => o.switch == switch).bind fun o => o.values.head?

/-- The settings that options state. -/
def settingsOf (given : List Occurrence) : Settings where
  decoding := if has given .positionalModifiers then .positional else .keyword
  interfaceExtends := has given .interfaceExtends
  dedupe := if value? given .dedupeEdges == some "per-edge" then .perEdge else .batch

/-- The action that a command and its options state. -/
def actionOf (verb : Verb) (given : List Occurrence) : Action :=
  match verb with
  | .parse => .parse (has given .pretty) (value? given .output)
  | .diagram => .diagram (has given .pretty) (value? given .output)
  | .preview =>
    .preview (if value? given .style == some "ascii" then .ascii else .unicode)
      (value? given .output)
  | .validate => .validate

/-- The invocation of a command with the arguments behind it. There has to be an
input. -/
def ofArguments? (verbose : Bool) (verb : Verb) (arguments : List String) : Option Invocation := do
  let given ← occurrences? (arguments.flatMap (items verb.switches))
  let inputs := (given.filter fun o => o.switch == .input).flatMap Occurrence.values
  if areProper given && !inputs.isEmpty then
    return {
      verbose := verbose || has given .verbose
      inputs
      name := value? given .name
      settings := settingsOf given
      action := actionOf verb given }
  else none

end Invocation

namespace Request

/-- What the items of one argument before the command do: end the reading, or go
on with the options given so far, the last of which may still need its value. -/
inductive Progress where
  | usage
  | version
  | next (given : List Occurrence)
  | pending (given : List Occurrence) (switch : Switch)

/-- Take one more option before the command. -/
def Progress.add (given : List Occurrence) (o : Occurrence) : Option (List Occurrence) :=
  if areProper (o :: given) then some (o :: given) else none

/-- Take the items of one argument before the command. -/
def progress (given : List Occurrence) : List Item → Progress
  | [] => .next given
  | .option switch attached :: rest =>
    if switch = .version then .version
    else
      match attached, switch.arity with
      | some value, _ =>
        match Progress.add given ⟨switch, [value]⟩ with
        | some given => progress given rest
        | none => .usage
      | none, .none =>
        match Progress.add given ⟨switch, []⟩ with
        | some given => progress given rest
        | none => .usage
      | none, _ => .pending given switch
  | _ => .usage

/-- Read the arguments from some place before the command on. `pending` is the
option that waits for its value. -/
def read? (given : List Occurrence) (pending : Option Switch) : List String → Option Request
  | [] => none
  | argument :: rest =>
    match items Switch.leading argument, pending with
    | [.word value], some switch =>
      match Progress.add given ⟨switch, [value]⟩ with
      | some given => read? given none rest
      | none => none
    | _, some _ => none
    | [.word word], none => do
      let verb ← Verb.named? word
      let invocation ← Invocation.ofArguments? (Invocation.has given .verbose) verb rest
      return .run invocation
    | found, none =>
      match progress given found with
      | .usage => none
      | .version => some .version
      | .next given => read? given none rest
      | .pending given switch => read? given (some switch) rest

/-- What the arguments of the program ask for, unless they are not to be
understood. -/
def ofArguments? (arguments : List String) : Option Request := read? [] none arguments

end Request

end ClassDiagram.Command
