import ClassDiagram.Catalogue.Basic
import ClassDiagram.Catalogue.SourceFile
import ClassDiagram.Proofs.Source.Phrase

/-!
# Declaration trees

A declaration tree is a type with its supertypes, its members and the types declared
inside it, as far as all names in it are plain words. Which supertypes and members a
type can have depends on its kind, so they belong to its shape. A tree is written as
a source text in either spelling, and it says what the catalogue has to hold of it.
-/

namespace ClassDiagram

open Source (Spelling)

/-- The words that name nothing. -/
def reservedWords : List Text :=
  ["class", "interface", "enum", "extends", "implements", "package", "import", "public",
    "protected", "private", "static", "final", "abstract", "transient", "volatile",
    "synchronized", "native", "default", "strictfp", "sealed"].map String.toList

/-- True of the texts of letters, digits and underscores in ASCII that are not
reserved. -/
def isName (t : Text) : Bool :=
  !t.isEmpty && t.all (fun c => c.isAlphanum || c == '_') && !reservedWords.contains t

/-- A name. -/
structure Word where
  text : Text
  isName : isName text = true
  deriving DecidableEq

/-- The name in the catalogue. -/
def Word.name (w : Word) : String := String.ofList w.text

/-- The names of a list, with commas between them. -/
def Word.list (spelling : Spelling) (ws : List Word) : Text :=
  (',' :: spelling.gap).intercalate (ws.map Word.text)

/-- The keyword of an access. -/
def Access.keyword : Access → Text
  | privateAccess => "private".toList
  | protectedAccess => "protected".toList
  | publicAccess => "public".toList

/-- The keywords of a kind. -/
def Kind.keywords : Kind → List Text
  | plainClass => ["class".toList]
  | abstractClass => ["abstract".toList, "class".toList]
  | interface => ["interface".toList]
  | enum => ["enum".toList]

namespace Tree

/-- The words in front of the type of a member: the access and the flags that are
set. -/
def modifierWords (access : Access) (isStatic isFinal isAbstract : Bool) : List Text :=
  access.keyword :: ((if isStatic then ["static".toList] else []) ++
    (if isFinal then ["final".toList] else []) ++
    (if isAbstract then ["abstract".toList] else []))

/-- A field. -/
structure Field where
  access : Access
  isStatic : Bool
  isFinal : Bool
  type : Word
  name : Word
  value : Option Word
  deriving DecidableEq

namespace Field

/-- The words up to the name. -/
def words (f : Field) : List Text :=
  modifierWords f.access f.isStatic f.isFinal false ++ [f.type.text, f.name.text]

/-- The declaration without its semicolon. -/
def declaration (f : Field) : Text :=
  [' '].intercalate f.words ++
    (match f.value with
    | some value => " = ".toList ++ value.text
    | none => [])

/-- The declaration. -/
def text (f : Field) : Text := f.declaration ++ [';']

/-- What the catalogue holds of the field. -/
def toVariable (f : Field) : Variable where
  type := f.type.name
  name := f.name.name
  value := f.value.map Word.name
  access := f.access
  isStatic := f.isStatic
  isFinal := f.isFinal

end Field

/-- A method, or a constructor, which has neither a type nor a name of its own. -/
structure Operation where
  access : Access
  isStatic : Bool
  isFinal : Bool
  isAbstract : Bool
  /-- The type and the name of a method. -/
  head : Option (Word × Word)
  /-- The types and the names of the parameters. -/
  parameters : List (Word × Word)
  /-- Whether it ends in an empty body, and not in a semicolon. -/
  hasBody : Bool
  deriving DecidableEq

namespace Operation

/-- The words in front of the parameters. A constructor has the name of its owner. -/
def words (owner : Word) (o : Operation) : List Text :=
  modifierWords o.access o.isStatic o.isFinal o.isAbstract ++
    (match o.head with
    | some (type, name) => [type.text, name.text]
    | none => [owner.text])

/-- A parameter. -/
def parameterText (p : Word × Word) : Text := [' '].intercalate [p.1.text, p.2.text]

/-- The text between the parentheses. -/
def parametersText (spelling : Spelling) (o : Operation) : Text :=
  (',' :: spelling.gap).intercalate (o.parameters.map parameterText)

/-- The declaration up to its end. -/
def signature (spelling : Spelling) (owner : Word) (o : Operation) : Text :=
  [' '].intercalate (o.words owner) ++ '(' :: (o.parametersText spelling ++ [')'])

/-- The declaration. -/
def text (spelling : Spelling) (owner : Word) (o : Operation) : Text :=
  o.signature spelling owner ++
    (if o.hasBody then spelling.gap ++ ['{', '}'] else [';'])

/-- What the catalogue holds of the method or the constructor. -/
def toMethod (owner : Word) (o : Operation) : Method where
  type := o.head.map fun (type, _) => type.name
  name := ((o.head.map Prod.snd).getD owner).name
  access := o.access
  isStatic := o.isStatic
  isFinal := o.isFinal
  isAbstract := o.isAbstract
  isConstructor := o.head.isNone
  parameters := o.parameters.map fun (type, name) => ⟨type.name, name.name⟩

end Operation

/-- The kind of a type with what that kind can have: supertypes behind `extends` or
behind `implements`, and members. An empty list of supertypes is left out. -/
inductive Shape where
  | classLike (isAbstract : Bool) (extended implemented : List Word) (fields : List Field)
    (operations : List Operation)
  | interface (extended : List Word) (fields : List Field) (operations : List Operation)
  | enum
  deriving DecidableEq

namespace Shape

def kind : Shape → Kind
  | classLike isAbstract .. => if isAbstract then .abstractClass else .plainClass
  | interface .. => .interface
  | enum => .enum

def extended : Shape → List Word
  | classLike _ extended .. => extended
  | interface extended .. => extended
  | enum => []

def implemented : Shape → List Word
  | classLike _ _ implemented .. => implemented
  | interface .. => []
  | enum => []

def fields : Shape → List Field
  | classLike _ _ _ fields _ => fields
  | interface _ fields _ => fields
  | enum => []

def operations : Shape → List Operation
  | classLike _ _ _ _ operations => operations
  | interface _ _ operations => operations
  | enum => []

/-- The words up to the name of the type. -/
def words (shape : Shape) (name : Word) : List Text := shape.kind.keywords ++ [name.text]

/-- A keyword and the supertypes behind it, if there are any. -/
def clause (spelling : Spelling) (keyword : Text) (supertypes : List Word) : Text :=
  if supertypes.isEmpty then [] else ' ' :: (keyword ++ ' ' :: Word.list spelling supertypes)

/-- The header. -/
def header (spelling : Spelling) (shape : Shape) (name : Word) : Text :=
  [' '].intercalate (shape.words name) ++
    (clause spelling "extends".toList shape.extended ++
      clause spelling "implements".toList shape.implemented)

/-- The fields and the operations of the type. -/
def members (spelling : Spelling) (shape : Shape) (name : Word) : Text :=
  shape.fields.flatMap (fun f => f.text ++ spelling.gap) ++
    shape.operations.flatMap fun o => o.text spelling name ++ spelling.gap

/-- What the catalogue holds of a list of supertypes. -/
def supertypeNames (supertypes : List Word) : Option (List String) :=
  if supertypes.isEmpty then none else some (supertypes.map Word.name)

/-- The entry of a type of this shape. -/
def entry (shape : Shape) (name : Word) (parent : Option String) (id : Identifier) : Entry where
  id
  name := name.name
  kind := shape.kind
  extended := supertypeNames shape.extended
  implemented := supertypeNames shape.implemented
  parent
  fields := if shape.kind = .enum then none else some (shape.fields.map Field.toVariable)
  methods :=
    if shape.kind = .enum then none else some (shape.operations.map (Operation.toMethod name))

end Shape

end Tree

/-- A declaration with the declarations inside it. -/
inductive Tree where
  | node (shape : Tree.Shape) (name : Word) (nested : List Tree)

namespace Tree

/-- What holds of a tree as soon as it holds of the trees inside it holds of every
tree. -/
@[induction_eliminator]
theorem induct {motive : Tree → Prop}
    (node : ∀ shape name nested, (∀ t ∈ nested, motive t) → motive (.node shape name nested))
    (t : Tree) : motive t :=
  @Tree.rec motive (fun ts => ∀ t ∈ ts, motive t) node (by simp)
    (fun _ _ ht hts => List.forall_mem_cons.mpr ⟨ht, hts⟩) t

def shape : Tree → Shape
  | node shape _ _ => shape

def name : Tree → Word
  | node _ name _ => name

def nested : Tree → List Tree
  | node _ _ nested => nested

mutual

/-- The source text of a declaration. -/
def text (spelling : Spelling) : Tree → Text
  | node shape name nested =>
    shape.header spelling name ++ (spelling.gap ++ '{' :: (spelling.gap ++
      (shape.members spelling name ++ (texts spelling nested ++ ['}']))))

/-- The source texts of declarations behind each other. -/
def texts (spelling : Spelling) : List Tree → Text
  | [] => []
  | t :: ts => t.text spelling ++ (spelling.gap ++ texts spelling ts)

end

/-- Trees are written like the members in front of them, with a gap behind each. -/
theorem texts_eq_flatMap (spelling : Spelling) (ts : List Tree) :
    texts spelling ts = ts.flatMap fun t => t.text spelling ++ spelling.gap := by
  induction ts with
  | nil => rfl
  | cons t ts ih => rw [texts, List.flatMap_cons, ih, List.append_assoc]

mutual

/-- The number of generations of a tree. -/
def height : Tree → Nat
  | node _ _ nested => heights nested + 1

/-- The number of generations of several trees. -/
def heights : List Tree → Nat
  | [] => 0
  | t :: ts => max t.height (heights ts)

end

/-- A declaration at its place: with the type that it stands in. -/
structure Placed where
  parent : Option String
  tree : Tree

namespace Placed

/-- The declarations inside another one, at their places. -/
def inside (p : Placed) : List Placed := p.tree.nested.map fun t => ⟨some p.tree.name.name, t⟩

/-- The entry of a declaration at its place. -/
def entry (p : Placed) (id : Identifier) : Entry := p.tree.shape.entry p.tree.name p.parent id

/-- The source file of a declaration at its place. -/
def file (spelling : Spelling) (p : Placed) : SourceFile :=
  ⟨p.tree.name.name, String.ofList (p.tree.text spelling), p.parent⟩

end Placed

/-- The declarations of one generation, from left to right: the given ones, or those
inside the generation before. -/
def generation (trees : List Tree) : Nat → List Placed
  | 0 => trees.map fun t => ⟨none, t⟩
  | depth + 1 => (generation trees depth).flatMap Placed.inside

/-- All declarations, generation after generation. -/
def breadthFirst (trees : List Tree) : List Placed :=
  (List.range (heights trees)).flatMap (generation trees)

end Tree

end ClassDiagram
