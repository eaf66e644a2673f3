import ClassDiagram.Command.Arguments
import ClassDiagram.Command.FileTree
import ClassDiagram.Json.Model

/-!
# Running a command

A run looks at the files that its inputs lead to, makes a catalogue, a diagram or
a preview of them, and delivers the result on standard output or to a file. What
it does is a function of its environment: of what paths lead to, the text on
standard input, the log format, and the identifiers to draw. This function makes
a plan, which is an outcome or has a file to write before there is one.

A run that fails tells why on standard error. It has nothing to deliver, or it
could not write the file to which it was to deliver its result.
-/

namespace ClassDiagram.Command

/-- What a run finds. -/
structure Environment where
  /-- The log format that is stated. -/
  logFormat : Option String
  /-- The text on standard input. -/
  stdin : String
  /-- The identifiers to draw. -/
  supply : Identifier.Supply
  /-- What a path leads to. -/
  look : String → Found

/-- What a run finds, and what comes of a file that it writes. -/
structure Surroundings extends Environment where
  write : String → String → Writing

/-- What a run leaves behind. -/
structure Outcome where
  code : Nat := 0
  stdout : String := ""
  stderr : String := ""
  /-- The path of the file that is created or changed, and what it holds now. -/
  written : Option (String × String) := none
  deriving DecidableEq, Repr

/-- Why a run fails. -/
inductive RunFault where
  /-- Standard input says nothing about the name of its type. -/
  | nameRequired
  | unreadable (path : String) (reason : FileFailure)
  | unwritable (path : String) (reason : FileFailure)
  | project (fault : ProjectFault)
  deriving DecidableEq

/-- The wording of the fault. -/
def RunFault.message : RunFault → String
  | nameRequired => "--name is required when reading from stdin"
  | unreadable path reason => "Failed to read input file '" ++ path ++ "': " ++ reason.message
  | unwritable path reason => "Failed to write output file '" ++ path ++ "': " ++ reason.message
  | project fault => fault.message

/-! ## Inputs -/

/-- The last name of a path. -/
def lastName (path : String) : String := (FileTree.names path).getLast?.getD ""

/-- The source files of the inputs, in order. A hyphen stands for standard input,
which has nothing left once it has been read. -/
def sources (env : Environment) (name : Option String) (stdin : String) :
    List String → Except RunFault (List SourceFile)
  | [] => .ok []
  | path :: paths =>
    if path = "-" then
      match name with
      | none => .error .nameRequired
      | some name => (sources env name "" paths).map (⟨name, stdin, none⟩ :: ·)
    else
      match env.look path with
      | .failure reason => .error (.unreadable path reason)
      | .file text =>
        (sources env name stdin paths).map (⟨stem (lastName path), text, none⟩ :: ·)
      | .directory found =>
        (sources env name stdin paths).map
          (found.map (fun (name, text) => ⟨name, text, none⟩) ++ ·)

/-! ## Results -/

/-- What an action makes of the sources: the note that a talkative run adds, the
content to deliver, and where to. -/
structure Product where
  note : Option String
  content : String
  output : Option String

/-- A JSON value as text. -/
def jsonText (pretty : Bool) (v : Json.Value) : String :=
  String.ofList (if pretty then v.pretty else v.compact)

/-- What an action makes of the sources. -/
def Action.product (settings : Settings) (supply : Identifier.Supply)
    (files : List SourceFile) : Action → Except ProjectFault Product
  | .parse pretty output => do
    let catalogue ← (Project.catalogue settings supply files).mapError .reading
    return ⟨some ("Parsed " ++ toString catalogue.length ++ " types"),
      jsonText pretty (Catalogue.toJson catalogue), output⟩
  | .diagram pretty output => do
    let diagram ← Project.diagram settings supply files
    return ⟨some ("Built diagram with " ++ toString diagram.elements.length ++ " elements"),
      jsonText pretty diagram.toJson, output⟩
  | .preview style output => do
    let preview ← Project.preview settings supply style files
    return ⟨none, String.ofList preview, output⟩
  | .validate => do
    let catalogue ← (Project.catalogue settings supply files).mapError .reading
    return ⟨none, "ok: " ++ toString catalogue.length ++ " types", none⟩

/-- What an action says on standard output about a fault of the project. Only the
check of the sources says anything. -/
def Action.complaint (fault : ProjectFault) : Action → String
  | .validate => "invalid: " ++ fault.message ++ "\n"
  | _ => ""

/-- Content as a terminal shows it, with a line feed at its end. -/
def terminated (content : String) : String :=
  if content = "" || content.toList.getLast? == some '\n' then content else content ++ "\n"

/-! ## The run -/

/-- Lines of text. -/
def lines (texts : List String) : String := String.join (texts.map (· ++ "\n"))

/-- The outcome of a run that fails after it has said something. -/
def Outcome.failed (said : List String) (fault : RunFault) (stdout : String) : Outcome where
  code := 1
  stdout := stdout
  stderr := lines (said ++ ["Error: " ++ fault.message])

/-- What a run is to do when all that it reads has been read. -/
inductive Plan where
  /-- Nothing but to end. -/
  | done (outcome : Outcome)
  /-- Write a content to a file. -/
  | write (said : List String) (path content : String)
  deriving DecidableEq, Repr

/-- Deliver a product to its file or, without one, to standard output. -/
def deliver (said : List String) (product : Product) : Plan :=
  match product.output.filter (· != "-") with
  | none => .done { stdout := terminated product.content, stderr := lines said }
  | some path => .write said path product.content

/-- The outcome of a plan. The run fails if its file is not written, whether it could
not be opened or could not take all of the content. -/
def Plan.outcome (write : String → String → Writing) : Plan → Outcome
  | done outcome => outcome
  | .write said path content =>
    let writing := write path content
    let written := (writing.held? content).map (path, ·)
    match writing.failure? with
    | none => { stderr := lines said, written }
    | some reason => { Outcome.failed said (.unwritable path reason) "" with written }

/-- What the program is called in its banner and its version. -/
def banner : String := "Classlift v0.1.0"

/-- The version. -/
def versionText : String := "classlift 0.1.0\n"

/-- The warning about a log format of the environment that there is not. -/
def logWarning (env : Environment) : List String :=
  match env.logFormat.map LogFormat.named with
  | some (.error fault) =>
    ["Warning: Failed to initialize logging: Invalid log format: " ++ fault.message]
  | _ => []

/-- What a talkative run says. -/
def Invocation.says (invocation : Invocation) (text : Option String) : List String :=
  if invocation.verbose then text.toList else []

/-- What a command is to do. -/
def plan (env : Environment) (invocation : Invocation) : Plan :=
  let opening := logWarning env ++ invocation.says (some banner)
  match sources env invocation.name env.stdin invocation.inputs with
  | .error fault => .done (.failed opening fault "")
  | .ok files =>
    let counted :=
      opening ++ invocation.says (some ("Read " ++ toString files.length ++ " source files"))
    match invocation.action.product invocation.settings env.supply files with
    | .error fault =>
      .done (.failed counted (.project fault) (invocation.action.complaint fault))
    | .ok product => deliver (counted ++ invocation.says product.note) product

/-- Run a command. -/
def run (around : Surroundings) (invocation : Invocation) : Outcome :=
  (plan around.toEnvironment invocation).outcome around.write

/-- Do what the arguments ask for; `none` is a usage error. -/
def execute (around : Surroundings) (arguments : List String) : Option Outcome :=
  match Request.ofArguments? arguments with
  | none => none
  | some .version => some { stdout := versionText }
  | some (.run invocation) => some (run around invocation)

/-- The surroundings that a tree of files makes up on its medium. -/
def FileTree.surroundings (tree : FileTree) (stdin : String) (logFormat : Option String)
    (supply : Identifier.Supply) (medium : Medium := .sound) : Surroundings where
  logFormat := logFormat
  stdin := stdin
  supply := supply
  look := tree.look
  write := tree.writing medium

/-- The tree after a run. -/
def FileTree.afterRun (tree : FileTree) (outcome : Outcome) : FileTree :=
  match outcome.written with
  | none => tree
  | some (path, content) =>
    match tree.target path with
    | .ok place => tree.write place content
    | .error _ => tree

end ClassDiagram.Command
