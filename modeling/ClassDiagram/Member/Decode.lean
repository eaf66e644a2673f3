import ClassDiagram.Literal.Search
import ClassDiagram.Member.Modifier
import ClassDiagram.Member.Parameter
import ClassDiagram.Member.Record

/-!
# Fields and methods

A record is taken apart into a field or a method. A record without a type and a
name is dropped. One field record may declare several names, and a method whose
name is that of its owner and that has no type is a constructor.
-/

namespace ClassDiagram.Member

/-- The text without one semicolon at its end. -/
def dropSemicolon (t : Text) : Text := if t.getLast? == some ';' then t.dropLast else t

/-- The names that the last word of a field without a value declares. -/
def declaredNames (value : Option Text) (name : Text) : List Text :=
  if value.isNone && name.contains ',' then
    (Text.splitWhere (· == ',') name).filter fun part => !part.isEmpty
  else [name]

/-- A field record as the text before the assignment and the value behind it. -/
def splitValue (record : Text) : Text × Option Text :=
  let text := dropAnnotations (dropSemicolon (Text.trim record))
  match Glyph.cutOutside? " = ".toList text.glyphs with
  | some (before, after) => (Glyph.chars before, some (Text.trim (Glyph.chars after)))
  | none => (text, none)

/-- The fields that a record declares. -/
def fields (decoding : Decoding) (record : Text) : List Variable :=
  let (declaration, value) := splitValue record
  let (modifiers, rest) := Modifiers.decode decoding (Text.words declaration)
  match lastTwo? rest with
  | none => []
  | some (type, name) =>
    (declaredNames value name).map fun name => {
      type := String.ofList type
      name := String.ofList name
      value := value.map String.ofList
      access := modifiers.access
      isStatic := modifiers.isStatic
      isFinal := modifiers.isFinal }

/-- The access of a constructor, if the words in front of the parameters are those
of one: the name of the owner, alone or behind an access keyword, or all that is
left behind the modifiers. -/
def constructorAccess? (owner : Text) (words : List Text) (modifiers : Modifiers)
    (rest : List Text) : Option Access :=
  let plain :=
    match words with
    | [name] => if name = owner then some default else none
    | [access, name] => if name = owner then Access.ofKeyword? access else none
    | _ => none
  plain.or (if rest = [owner] then some modifiers.access else none)

/-- A method record as the text in front of its parameters and the parameters. The
signature ends at the first brace. -/
def splitSignature? (record : Text) : Option (Text × Text) :=
  let signature := (dropAnnotations (Text.trim record)).takeWhile (· != '{')
  match signature.dropWhile (· != '(') with
  | _ :: group => some (signature.takeWhile (· != '('), (splitGroup 0 group).1)
  | [] => none

/-- The type, name and access of a method, for a constructor and any other. -/
def methodHead? (owner : Text) (words : List Text) (modifiers : Modifiers) (rest : List Text) :
    Option (Option Text × Text × Access) :=
  match constructorAccess? owner words modifiers rest with
  | some access => some (none, owner, access)
  | none => (lastTwo? rest).map fun (type, name) => (some type, name, modifiers.access)

/-- The method that a record declares inside the type `owner`. -/
def method? (decoding : Decoding) (owner record : Text) : Option Method := do
  let (lead, list) ← splitSignature? record
  let words := Text.words lead
  let (modifiers, rest) := Modifiers.decode decoding words
  let (type, name, access) ← methodHead? owner words modifiers rest
  return {
    type := type.map String.ofList
    name := String.ofList name
    access
    isStatic := modifiers.isStatic
    isFinal := modifiers.isFinal
    isAbstract := modifiers.isAbstract
    isConstructor := type.isNone
    parameters := parameters list }

/-- The fields of the records, in order. -/
def allFields (decoding : Decoding) (records : List Record) : List Variable :=
  records.flatMap fun r => if r.kind = .variable then fields decoding r.value else []

/-- The methods of the records, in order. -/
def allMethods (decoding : Decoding) (owner : Text) (records : List Record) : List Method :=
  records.filterMap fun r => if r.kind = .method then method? decoding owner r.value else none

end ClassDiagram.Member
