import ClassDiagram.Catalogue.Project
import ClassDiagram.Diagram.Layout
import ClassDiagram.Diagram.Relation

/-!
# Diagrams

A diagram holds nodes and edges in the order in which they were added. A node is
refused if its identifier is taken, an edge if one of its ends is no node, and a
refused step leaves the diagram as it was.

The diagram of a catalogue has the box of each entry and the edges between the
entries. The diagram of a project is that of its catalogue.
-/

namespace ClassDiagram

/-- Nodes and the edges between them. -/
structure Diagram where
  nodes : List Node := []
  edges : List Edge := []
  deriving DecidableEq

/-- Why a node or an edge is refused. -/
inductive DiagramFault where
  | duplicateNode (id : Identifier)
  | missingSource (id : Identifier)
  | missingTarget (id : Identifier)
  deriving DecidableEq

/-- The wording of a refusal. -/
def DiagramFault.message : DiagramFault → String
  | duplicateNode id => "Duplicate node id " ++ String.ofList id.text
  | missingSource id => "Edge source " ++ String.ofList id.text ++ " is not a node"
  | missingTarget id => "Edge target " ++ String.ofList id.text ++ " is not a node"

namespace Diagram

/-- The diagram without nodes. -/
def empty : Diagram := {}

/-- The node with an identifier. -/
def node? (d : Diagram) (id : Identifier) : Option Node := d.nodes.find? fun node => node.id == id

/-- True if there is a node with this identifier. -/
def hasNode (d : Diagram) (id : Identifier) : Bool := (d.node? id).isSome

/-- The first node of a type with this name. -/
def nodeNamed? (d : Diagram) (name : String) : Option Node :=
  d.nodes.find? fun node => node.typeName == name

/-- Add a node under a new identifier. -/
def addNode (d : Diagram) (node : Node) : Except DiagramFault Diagram :=
  if d.hasNode node.id then .error (.duplicateNode node.id)
  else .ok { d with nodes := d.nodes ++ [node] }

/-- Add an edge between two nodes. -/
def addEdge (d : Diagram) (edge : Edge) : Except DiagramFault Diagram :=
  if !d.hasNode edge.source then .error (.missingSource edge.source)
  else if !d.hasNode edge.target then .error (.missingTarget edge.target)
  else .ok { d with edges := d.edges ++ [edge] }

/-- All nodes, then all edges. -/
def elements (d : Diagram) : List Element := d.nodes.map .node ++ d.edges.map .edge

/-- The changes that a diagram undergoes. -/
inductive Step where
  | addNode (node : Node)
  | addEdge (edge : Edge)
  | clear
  deriving DecidableEq

/-- The diagram after a change, or why the change is refused. -/
def Step.apply (step : Step) (d : Diagram) : Except DiagramFault Diagram :=
  match step with
  | addNode node => d.addNode node
  | addEdge edge => d.addEdge edge
  | clear => .ok empty

/-- The diagram after a change. A refused one has no effect. -/
def after (d : Diagram) (step : Step) : Diagram :=
  match step.apply d with
  | .ok changed => changed
  | .error _ => d

/-- The diagram after several changes. -/
def run (steps : List Step) (d : Diagram) : Diagram := steps.foldl after d

/-- The diagram of a catalogue: the box of each entry, then the edges. -/
def ofCatalogue (settings : Settings) (catalogue : Catalogue) : Except DiagramFault Diagram := do
  let boxes ← (catalogue.map Entry.node).foldlM addNode empty
  (Relation.derive settings catalogue).foldlM addEdge boxes

end Diagram

/-- Why a project has no diagram. -/
inductive ProjectFault where
  | reading (fault : Fault)
  | building (fault : DiagramFault)
  deriving DecidableEq

/-- The wording of the fault. -/
def ProjectFault.message : ProjectFault → String
  | reading fault => fault.message
  | building fault => fault.message

/-- The diagram of a project. -/
def Project.diagram (settings : Settings) (supply : Identifier.Supply)
    (files : List SourceFile) : Except ProjectFault Diagram :=
  match Project.catalogue settings supply files with
  | .error fault => .error (.reading fault)
  | .ok catalogue => (Diagram.ofCatalogue settings catalogue).mapError .building

end ClassDiagram
