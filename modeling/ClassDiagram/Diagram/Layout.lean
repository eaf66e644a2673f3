import ClassDiagram.Diagram.Element

/-!
# The box of a type

A catalogue entry becomes a box: its stereotype and its name on top, then a row
for each field and each method, in the notation `+ name: type`.
-/

namespace ClassDiagram

/-- The row of a field: `- name: type = value`, and a note if it is final. -/
def Variable.line (v : Variable) : MemberLine where
  isStatic := v.isStatic
  text :=
    v.access.symbol.toString ++ " " ++ v.name ++ ": " ++ v.type ++
      (v.value.map (" = " ++ ·)).getD "" ++ if v.isFinal then " \x7breadOnly\x7d" else ""

/-- The row of a method: `+ name(a:int, b:String): type`. A constructor has no
type. -/
def Method.line (m : Method) : MemberLine where
  isStatic := m.isStatic
  text :=
    m.access.symbol.toString ++ " " ++ m.name ++ "(" ++
      ", ".intercalate (m.parameters.map fun p => p.name ++ ":" ++ p.type) ++ ")" ++
      (m.type.map (": " ++ ·)).getD ""

/-- The box of an entry, which keeps its identifier. -/
def Entry.node (entry : Entry) : Node where
  id := entry.id
  name := entry.kind.stereotype?.toList ++ [entry.name]
  fields := entry.fields.map (·.map Variable.line)
  methods := entry.methods.map (·.map Method.line)

end ClassDiagram
