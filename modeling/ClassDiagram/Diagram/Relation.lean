import ClassDiagram.Diagram.Element
import ClassDiagram.Settings

/-!
# Relationships between types

The edges of a catalogue are derived from names alone. A name stands for the
first entry that bears it, is not the entry that mentions it, and is of a kind
that the relationship admits. For each entry in order there is a batch of edges
to the types it extends, one to those it implements, and one to the types of its
fields and methods.

An edge is connected to a list of edges if the list holds it or its reverse.
Depending on the settings a batch is dropped when all of it is connected to the
edges before it, or each connected edge is dropped on its own.
-/

namespace ClassDiagram.Relation

/-- The entry that a name stands for inside `source`. -/
def target? (catalogue : Catalogue) (source : Entry) (admits : Kind → Bool) (name : String) :
    Option Entry :=
  catalogue.find? fun entry => entry.id != source.id && entry.name == name && admits entry.kind

/-- The edges of one shape from an entry to the entries that names stand for. -/
def edgesTo (shape : EdgeShape) (catalogue : Catalogue) (source : Entry) (admits : Kind → Bool)
    (names : List String) : List Edge :=
  names.filterMap fun name =>
    (target? catalogue source admits name).map fun target => ⟨shape, source.id, target.id⟩

/-- The kinds that an entry can extend: classes, and for an interface other
interfaces if the settings say so. -/
def extensible (settings : Settings) (source : Entry) (kind : Kind) : Bool :=
  kind.isClassLike || (settings.interfaceExtends && source.kind == .interface && kind == .interface)

/-- The edges to the types that an entry extends. -/
def extensions (settings : Settings) (catalogue : Catalogue) (source : Entry) : List Edge :=
  if source.kind = .enum then []
  else edgesTo .extension catalogue source (extensible settings source) (source.extended.getD [])

/-- The edges to the interfaces that a class implements. -/
def implementations (catalogue : Catalogue) (source : Entry) : List Edge :=
  if source.kind.isClassLike then
    edgesTo .implementation catalogue source (· == .interface) (source.implemented.getD [])
  else []

/-- The types of the fields and of the methods of an entry, in order. -/
def memberTypes (source : Entry) : List String :=
  (source.fields.getD []).map Variable.type ++ (source.methods.getD []).filterMap Method.type

/-- The edges to the types of the fields and methods of an entry. -/
def aggregations (catalogue : Catalogue) (source : Entry) : List Edge :=
  edgesTo .aggregation catalogue source (fun _ => true) (memberTypes source)

/-- The batches of an entry. -/
def batches (settings : Settings) (catalogue : Catalogue) (source : Entry) : List (List Edge) :=
  [extensions settings catalogue source, implementations catalogue source,
    aggregations catalogue source]

/-- True if the edges hold this very edge. -/
def hasSame (edges : List Edge) (edge : Edge) : Bool := edges.contains edge

/-- True if the edges hold the reverse of this edge. -/
def hasOpposite (edges : List Edge) (edge : Edge) : Bool := edges.contains edge.reversed

/-- True if the edges relate the two nodes of this edge in the same way. -/
def isConnected (edges : List Edge) (edge : Edge) : Bool :=
  hasSame edges edge || hasOpposite edges edge

/-- Add an edge that is not connected yet. -/
def addEdge (edges : List Edge) (edge : Edge) : List Edge :=
  if isConnected edges edge then edges else edges ++ [edge]

/-- Add the edges of a batch as the settings say. -/
def addBatch (dedupe : Dedupe) (edges batch : List Edge) : List Edge :=
  match dedupe with
  | .batch => if batch.all (isConnected edges) then edges else edges ++ batch
  | .perEdge => batch.foldl addEdge edges

/-- The edges of a catalogue. -/
def derive (settings : Settings) (catalogue : Catalogue) : List Edge :=
  (catalogue.flatMap (batches settings catalogue)).foldl (addBatch settings.dedupe) []

end ClassDiagram.Relation
