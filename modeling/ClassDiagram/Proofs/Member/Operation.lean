import ClassDiagram.Proofs.Member.Decode
import ClassDiagram.Proofs.Member.Parameter

/-!
# Methods in print

A method in print is its modifiers in whatever order, its type and its name, and its parameters.
A constructor has no type, and its name is that of the owner. What is left behind the modifiers
tells the two apart, and so do all words in front of the parameters if they are no more than two:
both agree (`methodHead?_owner`, `methodHead?_pair`). So the parts of the method are read back,
whatever stands behind its parameters (`method?_text_keywords`).
-/

namespace ClassDiagram.Member

open ClassDiagram.Tree (modifierWords)

/-! ## Constructors -/

/-- The words of an access that may be missing. -/
def accessWords (access : Option Access) : List Text := access.toList.map Access.keyword

section Constructor

variable {owner : Text} {ks ws rest : List Text} {access : Access}
  {isStatic isFinal isAbstract : Bool}

/-- Of three words and more only the last one can be the name of a constructor. -/
theorem constructorAccess?_of_length (h : 3 ≤ ws.length) (m : Modifiers) :
    constructorAccess? owner ws m rest = if rest = [owner] then some m.access else none := by
  match ws with
  | [] => cases h
  | [_] => simp at h
  | [_, _] => simp at h
  | _ :: _ :: _ :: _ => rfl

/-- The name of the owner is a constructor, alone or behind an access. -/
theorem methodHead?_accessWords (access : Option Access) (m : Modifiers) :
    methodHead? owner (accessWords access ++ [owner]) m rest =
      some (none, owner, access.getD default) := by
  have haccess : constructorAccess? owner (accessWords access ++ [owner]) m rest =
      some (access.getD default) := by
    cases access with
    | none =>
        change (if owner = owner then some default else none).or _ = _
        rw [if_pos rfl, Option.some_or]
        rfl
    | some access =>
        change (if owner = owner then Access.ofKeyword? access.keyword else none).or _ = _
        rw [if_pos rfl, Modifiers.ofKeyword?_keyword, Option.some_or]
        rfl
  rw [methodHead?, haccess]

/-- Behind modifiers in whatever order a constructor has the access that they state. -/
theorem methodHead?_owner (hks : ks.Perm (modifierWords access isStatic isFinal isAbstract)) :
    methodHead? owner (ks ++ [owner]) ⟨access, isStatic, isFinal, isAbstract⟩ [owner] =
      some (none, owner, access) := by
  match ks, hks with
  | [], hks => exact absurd hks.nil_eq (List.cons_ne_nil _ _).symm
  | [k], hks =>
      have hk : access.keyword = k := List.mem_singleton.mp (hks.mem_iff.mpr List.mem_cons_self)
      rw [← hk]
      exact methodHead?_accessWords (some access) _
  | _ :: _ :: _, _ =>
      rw [methodHead?, constructorAccess?_of_length (by simp), if_pos rfl]

/-- A type and a name are no constructor. -/
theorem methodHead?_pair (owner : Text) {type : Text} (htype : type ∉ Modifiers.keywords)
    (ks : List Text) (name : Text) (m : Modifiers) :
    methodHead? owner (ks ++ [type, name]) m [type, name] = some (some type, name, m.access) := by
  have hnone : constructorAccess? owner (ks ++ [type, name]) m [type, name] = none := by
    cases ks with
    | nil =>
        change (if name = owner then Access.ofKeyword? type else none).or _ = none
        rw [Modifiers.ofKeyword?_of_not_mem htype, ite_self, if_neg (by simp)]
        rfl
    | cons k ks => rw [constructorAccess?_of_length (by simp), if_neg (by simp)]
  rw [methodHead?, hnone]
  rfl

end Constructor

/-! ## Methods -/

/-- What stands between the modifiers and the parameters of a method: its type and its name, or
the name of the owner. -/
inductive MethodHead (owner : Text) where
  | typed (type name : Text) (htype : Text.IsTokenWithout leadMarks type)
    (hkeyword : type ∉ Modifiers.keywords) (hname : Text.IsTokenWithout leadMarks name)
  | constructor (howner : Text.IsTokenWithout leadMarks owner)
    (hkeyword : owner ∉ Modifiers.keywords)

namespace MethodHead

variable {owner : Text}

/-- The type, which a constructor lacks. -/
def type? : MethodHead owner → Option Text
  | typed type .. => some type
  | constructor .. => none

def name : MethodHead owner → Text
  | typed _ name .. => name
  | constructor .. => owner

/-- The words of the head. -/
def words (head : MethodHead owner) : List Text := head.type?.toList ++ [head.name]

theorem tokens_words (head : MethodHead owner) :
    ∀ w ∈ head.words, Text.IsTokenWithout leadMarks w := by
  cases head with
  | typed type name htype _ hname =>
      exact List.forall_mem_cons.mpr ⟨htype, List.forall_mem_singleton.mpr hname⟩
  | constructor howner _ => exact List.forall_mem_singleton.mpr howner

end MethodHead

section Method

variable {owner record list : Text} {ks : List Text} {access : Access}
  {isStatic isFinal isAbstract : Bool}

/-- The parameters end at the parenthesis behind their list. -/
theorem splitSignature?_list (hks : ks.Perm (modifierWords access isStatic isFinal isAbstract))
    (head : MethodHead owner) (ps : List TypedName) (tail : Text) :
    splitSignature?
        ([' '].intercalate (ks ++ head.words) ++ '(' :: (TypedName.list ps ++ ')' :: tail)) =
      some ([' '].intercalate (ks ++ head.words), TypedName.list ps) := by
  have hmarks : ∀ c ∈ leadMarks, Text.isWordChar c = false := Text.forall_mem_of_all rfl
  have hlead := ne_of_mem_lead (tokens_keywords hks.subset hmarks head.tokens_words)
  have hlist := TypedName.unmarked_list ps
  have hbrace : '\x7b' ∉ TypedName.list ps := fun hmem => hlist _ hmem (by decide)
  have hplain : ∀ c ∈ TypedName.list ps, c ≠ '(' ∧ c ≠ ')' := fun c hc =>
    ⟨(ne_of_mem_of_not_mem (by decide) (hlist c hc)).symm,
      (ne_of_mem_of_not_mem (by decide) (hlist c hc)).symm⟩
  exact splitSignature?_group (startsMember_keywords hks head.words) hlead hbrace
    (depth?_of_plain hplain 0) tail

/-- Modifiers in whatever order and a head declare a method. -/
theorem method?_keywords (hks : ks.Perm (modifierWords access isStatic isFinal isAbstract))
    (head : MethodHead owner)
    (hsplit : splitSignature? record = some ([' '].intercalate (ks ++ head.words), list)) :
    method? .keyword owner record = some {
      type := head.type?.map String.ofList
      name := String.ofList head.name
      access
      isStatic
      isFinal
      isAbstract
      isConstructor := head.type?.isNone
      parameters := parameters list } := by
  have hmarks : ∀ c ∈ leadMarks, Text.isWordChar c = false := Text.forall_mem_of_all rfl
  have hws := tokens_keywords hks.subset hmarks head.tokens_words
  cases head with
  | typed type name _ hkeyword _ =>
      exact method?_of_head hws hsplit (Modifiers.decode_perm hks hkeyword [name])
        (methodHead?_pair owner hkeyword ks name _)
  | constructor _ hkeyword =>
      exact method?_of_head hws hsplit (Modifiers.decode_perm hks hkeyword [])
        (methodHead?_owner hks)

end Method

/-- The parts of a method of the type `owner`. -/
structure MethodParts (owner : Text) where
  access : Access
  isStatic : Bool
  isFinal : Bool
  isAbstract : Bool
  head : MethodHead owner
  parameters : List TypedName

namespace MethodParts

variable {owner : Text}

/-- The record of a method whose modifiers are written in the given order, with the text behind
its parameters. -/
def text (m : MethodParts owner) (keywords : List Text) (tail : Text) : Text :=
  [' '].intercalate (keywords ++ m.head.words) ++
    '(' :: (TypedName.list m.parameters ++ ')' :: tail)

/-- What is read from it. -/
def toMethod (m : MethodParts owner) : Method where
  type := m.head.type?.map String.ofList
  name := String.ofList m.head.name
  access := m.access
  isStatic := m.isStatic
  isFinal := m.isFinal
  isAbstract := m.isAbstract
  isConstructor := m.head.type?.isNone
  parameters := m.parameters.map TypedName.toParameter

end MethodParts

/-- Every method is read back from its record, in whatever order its modifiers stand there and
whatever stands behind its parameters: a semicolon, or a body that may hold anything. -/
theorem method?_text_keywords {owner : Text} (m : MethodParts owner) {keywords : List Text}
    (h : keywords.Perm (modifierWords m.access m.isStatic m.isFinal m.isAbstract)) (tail : Text) :
    method? .keyword owner (m.text keywords tail) = some m.toMethod := by
  rw [MethodParts.text, method?_keywords h m.head (splitSignature?_list h m.head m.parameters tail),
    TypedName.parameters_list]
  rfl

/-- A parameter with commas inside the brackets of its type. -/
def TypedName.table : TypedName where
  type := "Map<K,V[]>".toList
  name := "m".toList
  type_token := by decide
  name_token := by decide
  nested := by
    have harray : WellBracketed true ['V', '[', ']'] :=
      .part (by decide) (.group (s := []) (by decide) .nil .nil)
    have harguments : WellBracketed true "K,V[]".toList := .part (by decide) (.comma harray)
    exact WellBracketed.append (s := "Map".toList) (.of_forall (Text.forall_mem_of_all rfl))
      (.group (by decide) harguments .nil)
  plain := Text.forall_mem_of_all rfl

/-- A method with two such parameters. -/
def MethodParts.lookup : MethodParts "Box".toList where
  access := .publicAccess
  isStatic := true
  isFinal := true
  isAbstract := false
  head := .typed "List<V>".toList "get".toList (by decide) (by decide) (by decide)
  parameters := [.table, .table]

theorem method?_text_lookup :
    (["static", "public", "final"].map String.toList).Perm
        (modifierWords .publicAccess true true false) ∧
      method? .keyword "Box".toList
          "static public final List<V> get(Map<K,V[]> m,Map<K,V[]> m)\x7breturn \")\";\x7d".toList =
        some { type := some "List<V>", name := "get", access := .publicAccess, isStatic := true
               isFinal := true, parameters := [⟨"Map<K,V[]>", "m"⟩, ⟨"Map<K,V[]>", "m"⟩] } := by
  have hperm : (["static", "public", "final"].map String.toList).Perm
      (modifierWords .publicAccess true true false) := by decide
  have hread := method?_text_keywords .lookup hperm "\x7breturn \")\";\x7d".toList
  exact ⟨hperm, hread⟩

end ClassDiagram.Member
