import ClassDiagram.Text.Basic

/-!
# File trees

A tree of files is a list of paths with contents, beside a list of directories
that may be empty. A path is the list of the names on the way to it. Paths are
resolved name by name as an operating system does it: every name but the last
has to lead to a directory.

The sources in a directory are all files below it whose name ends in the
extension `java`. They come in the order of a walk that visits the entries of a
directory by name, which is the lexicographic order of their paths.

A file is opened before it is written, which creates it or empties it. Whether it
can be opened is a matter of the tree. Whether an opened file takes all of its
content is a matter of the medium below the tree, which may be full.
-/

namespace ClassDiagram.Command

/-- The names on the way to a file or directory. -/
abbrev Path := List String

/-- The order in which a walk comes to two paths. -/
def Path.atMost : Path → Path → Bool
  | [], _ => true
  | _ :: _, [] => false
  | a :: as, b :: bs => if a = b then Path.atMost as bs else Text.atMost a.toList b.toList

/-- Why the system refuses a file. -/
inductive FileFailure where
  | notFound
  | notDirectory
  | isDirectory
  /-- A reason in the words of the system. -/
  | stated (message : String)
  deriving DecidableEq, Repr

/-- The wording of the system. -/
def FileFailure.message : FileFailure → String
  | notFound => "No such file or directory (os error 2)"
  | notDirectory => "Not a directory (os error 20)"
  | isDirectory => "Is a directory (os error 21)"
  | stated message => message

/-- The name before the last dot, and the extension behind it. A name that begins
with its only dot has no extension. -/
def splitName (name : String) : String × Option String :=
  let behind := name.toList.reverse.takeWhile (· != '.')
  match name.toList.reverse.dropWhile (· != '.') with
  | _ :: c :: before => (String.ofList (c :: before).reverse, some (String.ofList behind.reverse))
  | _ => (name, none)

/-- The name of the type that a file declares. -/
def stem (name : String) : String := (splitName name).1

/-- True of the names that are collected from directories. -/
def isSourceName (name : String) : Bool := (splitName name).2 == some "java"

/-- What a path leads to. The sources of a directory are pairs of a type name and
a text. -/
inductive Found where
  | file (text : String)
  | directory (sources : List (String × String))
  | failure (reason : FileFailure)
  deriving DecidableEq, Repr

/-- What comes of writing a content to a file. -/
inductive Writing where
  /-- The file cannot be opened, and nothing has changed. -/
  | refused (reason : FileFailure)
  /-- The file has been opened, which has created or emptied it, and no more than
  this could be written to it. -/
  | broken (kept : String) (reason : FileFailure)
  | complete
  deriving DecidableEq, Repr

namespace Writing

/-- What the writer is told, unless all is well. -/
def failure? : Writing → Option FileFailure
  | refused reason => some reason
  | broken _ reason => some reason
  | complete => none

/-- What the file holds now, if it has been opened to take the content. -/
def held? (content : String) : Writing → Option String
  | refused _ => none
  | broken kept _ => some kept
  | complete => some content

end Writing

/-- What files can be stored on. For a file that has been opened and the content
it shall take, this tells how much of it can be written, and why no more; `none`
if all of it can. -/
abbrev Medium := Path → String → Option (String × FileFailure)

namespace Medium

/-- The medium that never breaks off. -/
def sound : Medium := fun _ _ => none

/-- Every file that has been opened can be written. -/
def TakesOpened (medium : Medium) : Prop := ∀ place content, medium place content = none

end Medium

/-- Files and directories. -/
structure FileTree where
  files : List (Path × String)
  directories : List Path

namespace FileTree

/-- The text of the file at a path. -/
def file? (tree : FileTree) (path : Path) : Option String := tree.files.lookup path

/-- True of the root, of the directories, and of every path on the way to a file
or directory. -/
def isDirectory (tree : FileTree) (path : Path) : Bool :=
  path.isEmpty || tree.directories.any (path.isPrefixOf ·) ||
    tree.files.any fun (file, _) => path.isPrefixOf file && path != file

/-- Follow a path from a place in the tree. Empty names and single dots stay in a
directory, two dots go up. -/
def follow (tree : FileTree) (place : Path) : List String → Except FileFailure Path
  | [] => .ok place
  | name :: names =>
    if (tree.file? place).isSome then .error .notDirectory
    else if !tree.isDirectory place then .error .notFound
    else if name == "" || name == "." then tree.follow place names
    else if name == ".." then
      if place.isEmpty then .error .notFound else tree.follow place.dropLast names
    else tree.follow (place ++ [name]) names

/-- The names in a path as it is written. -/
def names (path : String) : List String :=
  (Text.splitWhere (· == '/') path.toList).map String.ofList

/-- The place in the tree that a path leads to. The tree has nothing outside its
root, so an absolute path leads nowhere. -/
def resolve (tree : FileTree) (path : String) : Except FileFailure Path :=
  if path.toList.head? == some '/' then .error .notFound else tree.follow [] (names path)

/-- The sources below a directory, in the order of a walk. -/
def sources (tree : FileTree) (directory : Path) : List (String × String) :=
  let below := tree.files.filter fun (file, _) =>
    directory.isPrefixOf file && isSourceName (file.getLast?.getD "")
  (below.mergeSort fun a b => a.1.atMost b.1).map fun (file, text) =>
    (stem (file.getLast?.getD ""), text)

/-- What a path leads to. -/
def look (tree : FileTree) (path : String) : Found :=
  match tree.resolve path with
  | .error reason => .failure reason
  | .ok place =>
    match tree.file? place with
    | some text => .file text
    | none =>
      if tree.isDirectory place then .directory (tree.sources place) else .failure .notFound

/-- Where a file can be written, or why not. Its directory has to be there, and
the path has to name a file. -/
def target (tree : FileTree) (path : String) : Except FileFailure Path := do
  if path.toList.head? == some '/' then throw .notFound
  let given := names path
  let bare := (given.reverse.dropWhile (· == "")).reverse
  let directory ← tree.follow [] bare.dropLast
  if (tree.file? directory).isSome then throw .notDirectory
  if !tree.isDirectory directory then throw .notFound
  match bare.getLast? with
  | none => throw .isDirectory
  | some name =>
    if bare.length < given.length || name == "." || name == ".." then throw .isDirectory
    if tree.isDirectory (directory ++ [name]) then throw .isDirectory
    return directory ++ [name]

/-- What comes of writing a content to a path of a tree on a medium. -/
def writing (tree : FileTree) (medium : Medium) (path content : String) : Writing :=
  match tree.target path with
  | .error reason => .refused reason
  | .ok place =>
    match medium place content with
    | none => .complete
    | some (kept, reason) => .broken kept reason

/-- The tree with one more file, or with a file changed. -/
def write (tree : FileTree) (place : Path) (text : String) : FileTree :=
  { tree with files := (place, text) :: tree.files.filter fun (file, _) => file != place }

end FileTree

end ClassDiagram.Command
