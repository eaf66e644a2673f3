import ClassDiagram.Command.Run

/-!
# The program

The outer layer: it finds out what the inputs lead to, writes the file that the
plan of the command asks for, and reports the outcome.
-/

open ClassDiagram ClassDiagram.Command

/-- The reason that the system gives. -/
def failureOf : IO.Error → FileFailure
  | .noFileOrDirectory .. => .notFound
  | .inappropriateType .. => .notDirectory
  | error => .stated (toString error)

/-- A directory as an entry, through which it can be listed. -/
def rootOf (path : String) : IO.FS.DirEntry := ⟨path, ""⟩

/-- All files below a directory, by name in each directory. -/
partial def filesBelow (path : String) : IO (List String) := do
  let entries ← (rootOf path).root.readDir
  let names := (entries.toList.map (·.fileName)).mergeSort (· ≤ ·)
  let found ← names.mapM fun name => do
    let below := path ++ "/" ++ name
    if ← (rootOf below).root.isDir then filesBelow below else return [below]
  return found.flatten

/-- What a path leads to. -/
def lookAt (path : String) : IO Found :=
  try
    if ← (rootOf path).root.isDir then
      let below ← filesBelow path
      let files : List String := below.filter fun file => isSourceName (lastName file)
      return .directory (← files.mapM fun (file : String) => do
        return (stem (lastName file), ← IO.FS.readFile file))
    else return .file (← IO.FS.readFile path)
  catch error => return .failure (failureOf error)

/-- A supply of identifiers that no other run draws. -/
def drawSupply : IO Identifier.Supply := do
  let bytes ← IO.getRandomBytes 16
  return .random (bytes.toList.foldl (fun n byte => 256 * n + byte.toNat) 0)

/-- What a file holds, as far as it is text. -/
def heldBy (path : String) : IO String := do
  return (String.fromUTF8? (← IO.FS.readBinFile path)).getD ""

/-- Write to a file that has been opened. -/
def fill (file : IO.FS.Handle) (path content : String) : IO Writing := do
  try
    file.putStr content
    file.flush
    return .complete
  catch error =>
    return .broken (← heldBy path) (failureOf error)

/-- Write a content to a file, which is opened first. -/
def writeTo (path content : String) : IO Writing := do
  try
    fill (← IO.FS.Handle.mk path .write) path content
  catch error =>
    return .refused (failureOf error)

/-- Say what a run has to say, and end with its code. -/
def report (outcome : Outcome) : IO UInt32 := do
  IO.eprint outcome.stderr
  IO.print outcome.stdout
  return outcome.code.toUInt32

/-- Carry out a plan. -/
def carryOut : Plan → IO UInt32
  | .done outcome => report outcome
  | .write said path content => do
    let writing ← writeTo path content
    report ((Plan.write said path content).outcome fun _ _ => writing)

def main (arguments : List String) : IO UInt32 := do
  match Request.ofArguments? arguments with
  | none =>
    IO.eprintln "Usage: classlift [parse|diagram|preview|validate] --input <PATH>..."
    return 2
  | some .version => report { stdout := versionText }
  | some (.run invocation) =>
    let found ← invocation.inputs.mapM fun path => do
      return (path, ← if path = "-" then pure (.file "") else lookAt path)
    let stdin ← if invocation.inputs.contains "-" then (← IO.getStdin).readToEnd else pure ""
    carryOut (plan {
      logFormat := ← IO.getEnv "CLASSLIFT_LOG_FORMAT"
      stdin
      supply := ← drawSupply
      look := fun path => (found.lookup path).getD (.failure .notFound) } invocation)
