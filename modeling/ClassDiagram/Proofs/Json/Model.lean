import ClassDiagram.Json.Model
import ClassDiagram.Proofs.Json.Record

/-!
# Catalogues and diagrams through JSON

Every type of the catalogue and of diagrams is faithful: from the value that is written for it
the same is read again, and the value is read from either of its texts. So an absent list and
an empty one stay apart, and the flags and lists that are left out come back as they were.

An element says nowhere what it is. Its value is always storable. The value of an edge has no
identifier, so it is never read as a node (`Node.ofJson?_edge`), and the value of a node has no
source, so it is never read as an edge (`Edge.ofJson?_node`).
-/

namespace ClassDiagram

open Json

/-! ## Choices -/

theorem Kind.faithful : Faithful toJson ofJson? := by
  apply faithful_choice
  · intro kind
    cases kind <;> decide
  · decide

theorem Access.faithful : Faithful toJson ofJson? := by
  apply faithful_choice
  · intro access
    cases access <;> decide
  · decide

theorem NodeShape.faithful : Faithful toJson ofJson? := by
  apply faithful_choice
  · intro shape
    cases shape
    decide
  · decide

theorem EdgeShape.faithful : Faithful toJson ofJson? := by
  apply faithful_choice
  · intro shape
    cases shape <;> decide
  · decide

theorem Identifier.faithful : Faithful toJson Value.asIdentifier? := faithful_identifier

/-! ## The catalogue -/

theorem SourceFile.faithful : Faithful toJson ofJson? := by
  refine faithful_record (by decide) (fun _ => rfl) ?_ ?_
  · intro file
    simp only [List.map_cons, List.map_nil, Option.bind_eq_bind, Option.bind_some, Field.required,
      faithful_text.read_write, faithful_text.optional]
    rfl
  · simp [faithful_text.textual]

theorem Variable.faithful : Faithful toJson ofJson? := by
  refine faithful_record (by decide) (fun _ => rfl) ?_ ?_
  · intro v
    simp only [List.map_cons, List.map_nil, Option.bind_eq_bind, Option.bind_some, Field.required,
      faithful_text.read_write, faithful_text.optional, Access.faithful.read_write,
      faithful_bool.read_write]
    rfl
  · simp [faithful_text.textual, faithful_bool.textual, Access.faithful.textual]

theorem Parameter.faithful : Faithful toJson ofJson? := by
  refine faithful_record (by decide) (fun _ => rfl) ?_ ?_
  · intro p
    simp only [List.map_cons, List.map_nil, Option.bind_eq_bind, Option.bind_some, Field.required,
      faithful_text.read_write]
    rfl
  · simp [faithful_text.textual]

theorem Method.faithful : Faithful toJson ofJson? := by
  refine faithful_record (by decide) (fun _ => rfl) ?_ ?_
  · intro m
    simp only [List.map_cons, List.map_nil, Option.bind_eq_bind, Option.bind_some, Field.required,
      faithful_text.read_write, faithful_text.optional, Access.faithful.read_write, orElse_flag,
      Parameter.faithful.orElse_list]
    rfl
  · intro m
    have hparameters : ∀ v ∈ if m.parameters.isEmpty then none
        else some (Value.list Parameter.toJson m.parameters), v.Textual := by
      split
      · rintro _ ⟨⟩
      · rintro _ ⟨⟩
        exact Parameter.faithful.list.textual m.parameters
    simp only [List.forall_mem_cons]
    refine ⟨?_, ?_, ?_, textual_flag _, textual_flag _, textual_flag _, textual_flag _,
      hparameters, by simp⟩
    · simp [faithful_text.textual]
    · simp [faithful_text.textual]
    · simp [Access.faithful.textual]

theorem Entry.faithful : Faithful toJson ofJson? := by
  refine faithful_record (by decide) (fun _ => rfl) ?_ ?_
  · intro e
    simp only [List.map_cons, List.map_nil, Option.bind_eq_bind, Option.bind_some, Field.required,
      Identifier.faithful.read_write, faithful_text.read_write, Kind.faithful.read_write,
      faithful_text.optional, faithful_text.list.optional, Variable.faithful.list.optional,
      Method.faithful.list.optional]
    rfl
  · simp [faithful_text.textual, Identifier.faithful.textual, Kind.faithful.textual,
      faithful_text.list.textual, Variable.faithful.list.textual, Method.faithful.list.textual]

/-! ## Diagrams -/

theorem MemberLine.faithful : Faithful toJson ofJson? := by
  refine faithful_record (by decide) (fun _ => rfl) ?_ ?_
  · intro line
    simp only [List.map_cons, List.map_nil, Option.bind_eq_bind, Option.bind_some, Field.required,
      faithful_text.read_write, faithful_bool.read_write]
    rfl
  · simp [faithful_text.textual, faithful_bool.textual]

theorem Node.faithful : Faithful toJson ofJson? := by
  refine faithful_record (by decide) (fun _ => rfl) ?_ ?_
  · intro node
    simp only [List.map_cons, List.map_nil, Option.bind_eq_bind, Option.bind_some, Field.required,
      Identifier.faithful.read_write, NodeShape.faithful.read_write, faithful_text.list.read_write,
      MemberLine.faithful.list.optional]
    rfl
  · simp [Identifier.faithful.textual, NodeShape.faithful.textual, faithful_text.list.textual,
      MemberLine.faithful.list.textual]

theorem Edge.faithful : Faithful toJson ofJson? := by
  refine faithful_record (by decide) (fun _ => rfl) ?_ ?_
  · intro edge
    simp only [List.map_cons, List.map_nil, Option.bind_eq_bind, Option.bind_some, Field.required,
      Identifier.faithful.read_write, EdgeShape.faithful.read_write]
    rfl
  · simp [Identifier.faithful.textual, EdgeShape.faithful.textual]

/-- The box of a node holds lists of rows, so its value nests three levels deep. -/
theorem Node.isStorable_toJson (node : Node) (room : Nat) :
    node.toJson.isStorable (room + 3) = true := by
  have hline (line : MemberLine) : line.toJson.isStorable (room + 1) = true := by
    apply isStorable_record
    simp [isStorable_text, Value.isStorable]
  apply isStorable_record
  simp [Identifier.toJson, NodeShape.toJson, isStorable_text, Value.isStorable,
    isStorable_list hline, isStorable_list fun s => isStorable_text s (room + 1)]

theorem Edge.isStorable_toJson (edge : Edge) (room : Nat) :
    edge.toJson.isStorable (room + 1) = true := by
  apply isStorable_record
  simp [Identifier.toJson, EdgeShape.toJson, isStorable_text, Value.isStorable]

/-- No edge is read as a node, since it has no identifier of its own. -/
theorem Node.ofJson?_edge (edge : Edge) : ofJson? edge.toJson = none := by
  have hfields : edge.toJson.fields? ["id", "shape", "name", "variables", "methods"] =
      some [none, some edge.shape.toJson, none, none, none] := rfl
  rw [ofJson?, hfields]
  rfl

/-- No node is read as an edge, since it has no source. -/
theorem Edge.ofJson?_node (node : Node) : ofJson? node.toJson = none := by
  obtain ⟨id, shape, name, fields, methods⟩ := node
  have hfields : (Node.toJson ⟨id, shape, name, fields, methods⟩).fields?
      ["shape", "source", "target"] = some [some shape.toJson, none, none] := by
    cases fields with
    | none =>
        cases methods with
        | none => rfl
        | some methods => rfl
    | some fields =>
        cases methods with
        | none => rfl
        | some methods => rfl
  rw [ofJson?, hfields]
  cases shape
  rfl

/-- An element is read back as what it is. -/
theorem Element.faithful : Faithful toJson ofJson? where
  read_write element := by
    cases element with
    | node node =>
        have hstorable : node.toJson.isStorable Value.maxDepth = true := node.isStorable_toJson 124
        change (if node.toJson.isStorable Value.maxDepth then
          ((Node.ofJson? node.toJson).map Element.node).or
            ((Edge.ofJson? node.toJson).map Element.edge) else none) = _
        rw [if_pos hstorable, Node.faithful.read_write]
        rfl
    | edge edge =>
        have hstorable : edge.toJson.isStorable Value.maxDepth = true := edge.isStorable_toJson 126
        change (if edge.toJson.isStorable Value.maxDepth then
          ((Node.ofJson? edge.toJson).map Element.node).or
            ((Edge.ofJson? edge.toJson).map Element.edge) else none) = _
        rw [if_pos hstorable, Node.ofJson?_edge, Edge.faithful.read_write]
        rfl
  ne_null element := by
    cases element with
    | node node => exact Node.faithful.ne_null node
    | edge edge => exact Edge.faithful.ne_null edge
  textual element := by
    cases element with
    | node node => exact Node.faithful.textual node
    | edge edge => exact Edge.faithful.textual edge

/-! ## Texts -/

namespace Json

/-- From either text of what is written, on one line or over several, the same is read again. -/
def ReadBack {α : Type} (write : α → Value) (read : Value → Option α) : Prop :=
  ∀ x, (Value.read? (write x).compact).bind read = some x ∧
    (Value.read? (write x).pretty).bind read = some x

theorem Faithful.readBack {α : Type} {write : α → Value} {read : Value → Option α}
    (h : Faithful write read) : ReadBack write read := by
  intro x
  have htext (layout : Layout) : (Value.read? ((write x).write layout)).bind read = some x := by
    rw [Value.read?_write (h.textual x)]
    exact h.read_write x
  exact ⟨htext .compact, htext (.pretty 0)⟩

end Json

/-- All types of the model come back from their texts as they were, whatever characters their
strings have and whatever optional parts are missing, empty or filled. An element comes back as
the node or the edge that it is, and a diagram as its elements. -/
theorem readBack_model :
    ReadBack SourceFile.toJson SourceFile.ofJson? ∧
    ReadBack Variable.toJson Variable.ofJson? ∧
    ReadBack Parameter.toJson Parameter.ofJson? ∧
    ReadBack Method.toJson Method.ofJson? ∧
    ReadBack Entry.toJson Entry.ofJson? ∧
    ReadBack MemberLine.toJson MemberLine.ofJson? ∧
    ReadBack Node.toJson Node.ofJson? ∧
    ReadBack Edge.toJson Edge.ofJson? ∧
    ReadBack Element.toJson Element.ofJson? ∧
    (∀ edge : Edge, Node.ofJson? edge.toJson = none) ∧
    (∀ node : Node, Edge.ofJson? node.toJson = none) ∧
    ∀ d : Diagram,
      (Value.read? d.toJson.compact).bind (Value.asList? Element.ofJson?) = some d.elements ∧
      (Value.read? d.toJson.pretty).bind (Value.asList? Element.ofJson?) = some d.elements :=
  ⟨SourceFile.faithful.readBack, Variable.faithful.readBack, Parameter.faithful.readBack,
    Method.faithful.readBack, Entry.faithful.readBack, MemberLine.faithful.readBack,
    Node.faithful.readBack, Edge.faithful.readBack, Element.faithful.readBack, Node.ofJson?_edge,
    Edge.ofJson?_node, fun d => Element.faithful.list.readBack d.elements⟩

end ClassDiagram
