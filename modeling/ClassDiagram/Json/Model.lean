import ClassDiagram.Catalogue.SourceFile
import ClassDiagram.Diagram.Basic
import ClassDiagram.Json.Reader
import ClassDiagram.Json.Record
import ClassDiagram.Json.Storable
import ClassDiagram.Json.Writer

/-!
# Catalogues and diagrams in JSON

Each type of the catalogue and of diagrams is written as an object with its
fields in a fixed order. Absent fields, and the flags and parameters of methods
at their defaults, are left out. Reading takes back everything that is written.

An element of a diagram says nowhere whether it is a node or an edge. It is read
as a node if it can be, and else as an edge. The whole value has to be kept for
that, so it may nest only so deep, and all its strings and numbers count.
-/

namespace ClassDiagram

open Json

namespace Kind

/-- A kind in JSON. -/
def toJson (kind : Kind) : Value := .text kind.name

/-- The kind that a value names. -/
def ofJson? (v : Value) : Option Kind := v.asChoice? Kind.all Kind.name

end Kind

namespace Access

/-- An access in JSON. -/
def toJson (access : Access) : Value := .text access.name

/-- The access that a value names. -/
def ofJson? (v : Value) : Option Access := v.asChoice? Access.all Access.name

end Access

namespace NodeShape

/-- A shape in JSON. -/
def toJson (shape : NodeShape) : Value := .text shape.name

/-- The shape that a value names. -/
def ofJson? (v : Value) : Option NodeShape := v.asChoice? NodeShape.all NodeShape.name

end NodeShape

namespace EdgeShape

/-- A shape in JSON. -/
def toJson (shape : EdgeShape) : Value := .text shape.name

/-- The shape that a value names. -/
def ofJson? (v : Value) : Option EdgeShape := v.asChoice? EdgeShape.all EdgeShape.name

end EdgeShape

/-- An identifier in JSON. -/
def Identifier.toJson (id : Identifier) : Value := .string (some id.text)

namespace SourceFile

/-- A source file in JSON. -/
def toJson (file : SourceFile) : Value := .record [
  ("name", some (.text file.name)),
  ("text", some (.text file.text)),
  ("parent", file.parent.map .text)]

/-- The source file that a value describes. -/
def ofJson? (v : Value) : Option SourceFile := do
  let [name, text, parent] ← v.fields? ["name", "text", "parent"] | none
  return {
    name := ← Field.required Value.asText? name
    text := ← Field.required Value.asText? text
    parent := ← Field.optional Value.asText? parent }

end SourceFile

namespace Variable

/-- A field in JSON. -/
def toJson (v : Variable) : Value := .record [
  ("type", some (.text v.type)),
  ("name", some (.text v.name)),
  ("value", v.value.map .text),
  ("accessModifier", some v.access.toJson),
  ("static", some (.bool v.isStatic)),
  ("final", some (.bool v.isFinal))]

/-- The field that a value describes. -/
def ofJson? (v : Value) : Option Variable := do
  let [type, name, value, access, isStatic, isFinal] ←
    v.fields? ["type", "name", "value", "accessModifier", "static", "final"] | none
  return {
    type := ← Field.required Value.asText? type
    name := ← Field.required Value.asText? name
    value := ← Field.optional Value.asText? value
    access := ← Field.required Access.ofJson? access
    isStatic := ← Field.required Value.asBool? isStatic
    isFinal := ← Field.required Value.asBool? isFinal }

end Variable

namespace Parameter

/-- A parameter in JSON. -/
def toJson (p : Parameter) : Value := .record [
  ("type", some (.text p.type)),
  ("name", some (.text p.name))]

/-- The parameter that a value describes. -/
def ofJson? (v : Value) : Option Parameter := do
  let [type, name] ← v.fields? ["type", "name"] | none
  return {
    type := ← Field.required Value.asText? type
    name := ← Field.required Value.asText? name }

end Parameter

namespace Method

/-- A method in JSON. -/
def toJson (m : Method) : Value := .record [
  ("type", m.type.map .text),
  ("name", some (.text m.name)),
  ("accessModifier", some m.access.toJson),
  ("static", Value.flag? m.isStatic),
  ("final", Value.flag? m.isFinal),
  ("abstract", Value.flag? m.isAbstract),
  ("constructor", Value.flag? m.isConstructor),
  ("parameters",
    if m.parameters.isEmpty then none else some (.list Parameter.toJson m.parameters))]

/-- The method that a value describes. -/
def ofJson? (v : Value) : Option Method := do
  let [type, name, access, isStatic, isFinal, isAbstract, isConstructor, parameters] ←
    v.fields? ["type", "name", "accessModifier", "static", "final", "abstract", "constructor",
      "parameters"] | none
  return {
    type := ← Field.optional Value.asText? type
    name := ← Field.required Value.asText? name
    access := ← Field.required Access.ofJson? access
    isStatic := ← Field.orElse false Value.asBool? isStatic
    isFinal := ← Field.orElse false Value.asBool? isFinal
    isAbstract := ← Field.orElse false Value.asBool? isAbstract
    isConstructor := ← Field.orElse false Value.asBool? isConstructor
    parameters := ← Field.orElse [] (Value.asList? Parameter.ofJson?) parameters }

end Method

namespace Entry

/-- An entry of the catalogue in JSON. -/
def toJson (e : Entry) : Value := .record [
  ("id", some e.id.toJson),
  ("name", some (.text e.name)),
  ("kind", some e.kind.toJson),
  ("extends", e.extended.map (.list .text)),
  ("implements", e.implemented.map (.list .text)),
  ("parent", e.parent.map .text),
  ("variables", e.fields.map (.list Variable.toJson)),
  ("methods", e.methods.map (.list Method.toJson))]

/-- The entry that a value describes. -/
def ofJson? (v : Value) : Option Entry := do
  let [id, name, kind, extended, implemented, parent, fields, methods] ←
    v.fields? ["id", "name", "kind", "extends", "implements", "parent", "variables", "methods"]
    | none
  return {
    id := ← Field.required Value.asIdentifier? id
    name := ← Field.required Value.asText? name
    kind := ← Field.required Kind.ofJson? kind
    extended := ← Field.optional (Value.asList? Value.asText?) extended
    implemented := ← Field.optional (Value.asList? Value.asText?) implemented
    parent := ← Field.optional Value.asText? parent
    fields := ← Field.optional (Value.asList? Variable.ofJson?) fields
    methods := ← Field.optional (Value.asList? Method.ofJson?) methods }

end Entry

namespace MemberLine

/-- A row in JSON. -/
def toJson (line : MemberLine) : Value := .record [
  ("static", some (.bool line.isStatic)),
  ("text", some (.text line.text))]

/-- The row that a value describes. -/
def ofJson? (v : Value) : Option MemberLine := do
  let [isStatic, text] ← v.fields? ["static", "text"] | none
  return {
    isStatic := ← Field.required Value.asBool? isStatic
    text := ← Field.required Value.asText? text }

end MemberLine

namespace Node

/-- A node in JSON. -/
def toJson (node : Node) : Value := .record [
  ("id", some node.id.toJson),
  ("shape", some node.shape.toJson),
  ("name", some (.list .text node.name)),
  ("variables", node.fields.map (.list MemberLine.toJson)),
  ("methods", node.methods.map (.list MemberLine.toJson))]

/-- The node that a value describes. -/
def ofJson? (v : Value) : Option Node := do
  let [id, shape, name, fields, methods] ←
    v.fields? ["id", "shape", "name", "variables", "methods"] | none
  return {
    id := ← Field.required Value.asIdentifier? id
    shape := ← Field.required NodeShape.ofJson? shape
    name := ← Field.required (Value.asList? Value.asText?) name
    fields := ← Field.optional (Value.asList? MemberLine.ofJson?) fields
    methods := ← Field.optional (Value.asList? MemberLine.ofJson?) methods }

end Node

namespace Edge

/-- An edge in JSON. -/
def toJson (edge : Edge) : Value := .record [
  ("shape", some edge.shape.toJson),
  ("source", some edge.source.toJson),
  ("target", some edge.target.toJson)]

/-- The edge that a value describes. -/
def ofJson? (v : Value) : Option Edge := do
  let [shape, source, target] ← v.fields? ["shape", "source", "target"] | none
  return {
    shape := ← Field.required EdgeShape.ofJson? shape
    source := ← Field.required Value.asIdentifier? source
    target := ← Field.required Value.asIdentifier? target }

end Edge

namespace Element

/-- An element in JSON. -/
def toJson : Element → Value
  | node n => n.toJson
  | edge e => e.toJson

/-- The element that a value describes. -/
def ofJson? (v : Value) : Option Element :=
  if v.isStorable Value.maxDepth then
    ((Node.ofJson? v).map .node).or ((Edge.ofJson? v).map .edge)
  else none

end Element

/-- A diagram in JSON: the array of its elements. -/
def Diagram.toJson (d : Diagram) : Value := .list Element.toJson d.elements

/-- A catalogue in JSON. -/
def Catalogue.toJson (catalogue : Catalogue) : Value := .list Entry.toJson catalogue

end ClassDiagram
