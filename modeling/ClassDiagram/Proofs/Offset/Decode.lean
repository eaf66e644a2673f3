import ClassDiagram.Member.Decode
import ClassDiagram.Proofs.Literal.Search
import ClassDiagram.Proofs.Offset.Annotation
import ClassDiagram.Proofs.Offset.Split

/-!
# Taking members apart

A field is cut in front of its assignment and three bytes behind that place, which are the bytes of
the assignment. A method is cut at its first brace, at its first parenthesis, one byte behind it,
and at the parenthesis that closes it. The words in front are cut by number behind the modifiers.
None of these cuts fails, and they give the fields (`fields?_eq`) and the methods (`method?_eq`).
-/

namespace ClassDiagram

open Member

namespace Offset

/-! ## Modifiers -/

/-- The words from a number on. -/
def wordsFrom? (words : List Text) (start : Nat) : Option (List Text) :=
  if start ≤ words.length then some (words.drop start) else none

/-- The modifiers that keywords state, and how many words have been consumed. -/
def countKeywords (m : Modifiers) (consumed : Nat) : List Text → Modifiers × Nat
  | [] => (m, consumed)
  | word :: words =>
    match m.add? word with
    | some more => countKeywords more (consumed + 1) words
    | none => (m, consumed)

/-- Infer the modifiers behind the access keyword, which is `skip` words long. -/
def behindAccess? (access : Access) (skip : Nat) (words : List Text) :
    Option (Modifiers × List Text) := do
  let word ← words[skip]?
  if words.length = skip + 3 ∧ word = "abstract".toList then
    let rest ← wordsFrom? words (words.length - 2)
    return ({ access, isAbstract := true }, rest)
  else
    let optional := min (words.length - 2 - skip) 2
    let rest ← wordsFrom? words (skip + optional)
    return ({ access, isStatic := 1 ≤ optional, isFinal := 2 ≤ optional }, rest)

/-- Infer the modifiers from the number of words. -/
def byPosition? (words : List Text) : Option (Modifiers × List Text) :=
  if words.length ≤ 2 then some ({}, words)
  else do
    let first ← words[0]?
    match Access.ofKeyword? first with
    | none => behindAccess? default 0 words
    | some access => behindAccess? access 1 words

/-- The modifiers in front of the words of a member, and the words behind them. -/
def decode? (decoding : Decoding) (words : List Text) : Option (Modifiers × List Text) :=
  match decoding with
  | .keyword => do
    let (modifiers, consumed) := countKeywords {} 0 words
    let rest ← wordsFrom? words consumed
    return (modifiers, rest)
  | .positional => byPosition? words

section Modifiers

/-- As many words are consumed as there are keywords in front. -/
theorem countKeywords_eq (m : Modifiers) (before words : List Text) :
    ∃ keywords, words = keywords ++ (m.takeKeywords words).2 ∧
      countKeywords m before.length words =
        ((m.takeKeywords words).1, (before ++ keywords).length) := by
  induction words generalizing m before with
  | nil => exact ⟨[], rfl, by simp [countKeywords, Modifiers.takeKeywords]⟩
  | cons word words ih =>
      rw [countKeywords, Modifiers.takeKeywords]
      cases m.add? word with
      | none => exact ⟨[], rfl, by simp⟩
      | some more =>
          obtain ⟨keywords, hwords, hcount⟩ := ih more (before ++ [word])
          rw [List.length_append, List.length_singleton] at hcount
          refine ⟨word :: keywords, congrArg (word :: ·) hwords, hcount.trans ?_⟩
          rw [List.append_assoc, List.singleton_append]

theorem wordsFrom?_append (front : List Text) {rest : List Text} {start k : Nat}
    (hstart : start = front.length + k) (hk : k ≤ rest.length) :
    wordsFrom? (front ++ rest) start = some (rest.drop k) := by
  rw [wordsFrom?, hstart, if_pos (by rw [List.length_append]; omega), List.drop_append]
  simp

theorem behindAccess?_eq (access : Access) (front : List Text) {skip : Nat}
    (hskip : front.length = skip) (first second : Text) (more : List Text) :
    let rest := first :: second :: more
    let optional := min (rest.length - 2) 2
    behindAccess? access skip (front ++ rest) =
      some (if rest.length = 3 && rest.head? == some "abstract".toList then
        ({ access, isAbstract := true }, rest.tail)
      else
        ({ access, isStatic := 1 ≤ optional, isFinal := 2 ≤ optional }, rest.drop optional)) := by
  subst hskip
  dsimp only
  have hword : (front ++ first :: second :: more)[front.length]? = some first := by simp
  have hlength : (front ++ first :: second :: more).length = front.length + more.length + 2 := by
    simp [Nat.add_assoc]
  have hoptional : (front ++ first :: second :: more).length - 2 - front.length = more.length := by
    omega
  simp only [behindAccess?, hword, Option.bind_eq_bind, Option.bind_some, hoptional]
  by_cases habstract : more.length = 1 ∧ first = "abstract".toList
  · rw [if_pos ⟨by omega, habstract.2⟩, wordsFrom?_append front (k := 1) (by omega) (by simp),
      if_pos (by simp [habstract])]
    rfl
  · rw [if_neg (fun h => habstract ⟨by omega, h.2⟩),
      wordsFrom?_append front (k := min more.length 2) rfl (by simp),
      if_neg (by simpa using fun h => not_and.mp habstract h)]
    rfl

theorem byPosition?_eq (words : List Text) :
    byPosition? words = some (Modifiers.byPosition words) := by
  match words with
  | [] | [_] | [_, _] => rfl
  | first :: second :: third :: more =>
      have hlong : ¬(first :: second :: third :: more).length ≤ 2 := by simp
      rw [byPosition?, Modifiers.byPosition, if_neg hlong, if_neg hlong]
      cases hstated : Access.ofKeyword? first with
      | none =>
          have hrest := behindAccess?_eq default [] rfl first second (third :: more)
          simpa [hstated] using hrest
      | some access =>
          have hrest := behindAccess?_eq access [first] rfl second third more
          simpa [hstated] using hrest

theorem decode?_eq (decoding : Decoding) (words : List Text) :
    decode? decoding words = some (Modifiers.decode decoding words) := by
  cases decoding with
  | positional => exact byPosition?_eq words
  | keyword =>
      obtain ⟨keywords, hwords, hcount⟩ := countKeywords_eq {} [] words
      rw [List.length_nil, List.nil_append] at hcount
      have hrest : wordsFrom? words keywords.length = some (Modifiers.takeKeywords {} words).2 := by
        have hle : keywords.length ≤ words.length := by
          rw [hwords, List.length_append]
          exact Nat.le_add_right _ _
        rw [wordsFrom?, if_pos hle]
        conv => lhs; rw [hwords]
        rw [List.drop_left]
      simp only [decode?, hcount, hrest]
      rfl

end Modifiers

/-! ## Fields -/

/-- A field record as the text before the assignment and the value behind it. -/
def splitValue? (record : Text) : Option (Text × Option Text) := do
  let text ← dropAnnotations? (dropSemicolon (Text.trim record))
  match Text.findOutside text " = ".toList 0 with
  | some offset =>
    let declaration ← text.slice? 0 offset
    let value ← text.sliceFrom? (offset + 3)
    return (declaration, some (Text.trim value))
  | none => return (text, none)

/-- The fields that a record declares. -/
def fields? (decoding : Decoding) (record : Text) : Option (List Variable) := do
  let (declaration, value) ← splitValue? record
  let (modifiers, rest) ← decode? decoding (Text.words declaration)
  match lastTwo? rest with
  | none => return []
  | some (type, name) =>
    return (declaredNames value name).map fun name => {
      type := String.ofList type
      name := String.ofList name
      value := value.map String.ofList
      access := modifiers.access
      isStatic := modifiers.isStatic
      isFinal := modifiers.isFinal }

section Fields

theorem splitValue?_eq (record : Text) : splitValue? record = some (splitValue record) := by
  rw [splitValue?, splitValue, dropAnnotations?_eq]
  generalize dropAnnotations (dropSemicolon (Text.trim record)) = text
  have hfind : text.findOutside " = ".toList 0 = _ := Text.findOutside_size " = ".toList [] text
  rw [Option.bind_eq_bind, Option.bind_some, hfind, Quote.after_nil, ← Text.glyphs]
  cases hcut : Glyph.cutOutside? " = ".toList text.glyphs with
  | none => rfl
  | some parts =>
      obtain ⟨before, after⟩ := parts
      have htext := Glyph.chars_of_cutOutside? hcut
      rw [Text.chars_glyphs] at htext
      have hdeclaration : text.slice? 0 (Text.size (Glyph.chars before)) =
          some (Glyph.chars before) := by
        rw [htext]
        exact Text.slice?_part [] _ _ rfl (Nat.zero_add _)
      have hvalue : text.sliceFrom? (Text.size (Glyph.chars before) + 3) =
          some (Glyph.chars after) := by
        rw [htext, ← List.append_assoc]
        exact Text.sliceFrom?_part _ _ (Text.size_append _ _)
      simp only [Option.map_some, Text.size_nil, Nat.zero_add, hdeclaration, hvalue]
      rfl

theorem fields?_eq (decoding : Decoding) (record : Text) :
    fields? decoding record = some (fields decoding record) := by
  rw [fields?, splitValue?_eq, fields]
  dsimp only [Option.bind_eq_bind, Option.bind_some]
  rw [decode?_eq]
  dsimp only [Option.bind_some]
  cases lastTwo? (Modifiers.decode decoding (Text.words (splitValue record).1)).2 <;> rfl

end Fields

/-! ## Methods -/

/-- The text in front of a character, or all of it. -/
def textBefore? (p : Char → Bool) (t : Text) : Option Text :=
  match findChar? p t with
  | some offset => t.slice? 0 offset
  | none => some t

/-- A signature cut at the parenthesis at an offset and at the one that closes it. -/
def splitAt? (signature : Text) (opening : Nat) : Option (Text × Text) := do
  let group ← signature.sliceFrom? opening
  let stop := ((closing? 0 0 group).map (opening + ·)).getD signature.size
  let lead ← signature.slice? 0 opening
  let list ← signature.slice? (opening + 1) stop
  return (lead, list)

/-- A method record as the text in front of its parameters and the parameters. -/
def splitSignature? (record : Text) : Option (Option (Text × Text)) := do
  let text ← dropAnnotations? (Text.trim record)
  let signature ← textBefore? (· == '{') text
  match findChar? (· == '(') signature with
  | none => return none
  | some opening => (splitAt? signature opening).map some

/-- The method that a record declares inside the type `owner`. -/
def method? (decoding : Decoding) (owner record : Text) : Option (Option Method) := do
  match ← splitSignature? record with
  | none => return none
  | some (lead, list) =>
    let words := Text.words lead
    let (modifiers, rest) ← decode? decoding words
    let parameters ← parameters? list
    return (methodHead? owner words modifiers rest).map fun (type, name, access) => {
      type := type.map String.ofList
      name := String.ofList name
      access
      isStatic := modifiers.isStatic
      isFinal := modifiers.isFinal
      isAbstract := modifiers.isAbstract
      isConstructor := type.isNone
      parameters }

section Methods

theorem textBefore?_eq (p : Char → Bool) (t : Text) :
    textBefore? p t = some (t.takeWhile (!p ·)) := by
  rw [textBefore?]
  cases hfind : findChar? p t with
  | some offset => exact slice?_findChar? hfind
  | none =>
      rw [findChar?_eq, Option.map_eq_none_iff, List.head?_eq_none_iff] at hfind
      have ht := List.takeWhile_append_dropWhile (p := (!p ·)) (l := t)
      rw [hfind, List.append_nil] at ht
      exact congrArg some ht.symm

theorem splitAt?_eq (lead group : Text) :
    splitAt? (lead ++ '(' :: group) lead.size = some (lead, (splitGroup 0 group).1) := by
  have hgroup : Text.sliceFrom? (lead ++ '(' :: group) lead.size = some ('(' :: group) :=
    Text.sliceFrom?_part _ _ rfl
  have hlead : Text.slice? (lead ++ '(' :: group) 0 lead.size = some lead :=
    Text.slice?_part [] lead _ rfl (Nat.zero_add _)
  have hlist {inside behind : Text} (hinside : group = inside ++ behind) :
      Text.slice? (lead ++ '(' :: group) (lead.size + 1) (lead.size + (1 + inside.size)) =
        some inside := by
    have hsource : lead ++ '(' :: group = (lead ++ ['(']) ++ (inside ++ behind) := by
      rw [hinside, List.append_assoc, List.singleton_append]
    have hsize : (lead ++ ['(']).size = lead.size + 1 := Text.size_append _ _
    rw [hsource]
    exact Text.slice?_part _ inside behind hsize (by rw [hsize, Nat.add_assoc])
  simp only [splitAt?, hgroup, hlead, Option.bind_eq_bind, Option.bind_some]
  rcases closing?_group group with ⟨hnone, hall⟩ | ⟨hsome, hall⟩
  · have hsize : Text.size (lead ++ '(' :: group) = lead.size + (1 + Text.size group) := by
      rw [Text.size_append]
      rfl
    simp only [hnone, Option.map_none, Option.getD_none, hsize, hall]
    rw [hlist (List.append_nil group).symm]
    rfl
  · simp only [hsome, Option.map_some, Option.getD_some]
    rw [hlist hall]
    rfl

theorem splitSignature?_eq (record : Text) :
    splitSignature? record = some (Member.splitSignature? record) := by
  rw [splitSignature?, dropAnnotations?_eq, Member.splitSignature?]
  simp only [Option.bind_eq_bind, Option.bind_some, textBefore?_eq, bne]
  generalize (dropAnnotations (Text.trim record)).takeWhile (!· == '{') = signature
  have hsource := List.takeWhile_append_dropWhile (p := (!· == '(')) (l := signature)
  have hfirst := List.head?_dropWhile_not (!· == '(') signature
  rw [findChar?_eq]
  generalize signature.takeWhile (!· == '(') = lead at hsource ⊢
  generalize signature.dropWhile (!· == '(') = rest at hsource hfirst ⊢
  cases rest with
  | nil => rfl
  | cons c group =>
      obtain rfl : c = '(' := by simpa using hfirst
      rw [← hsource]
      simp only [List.head?_cons, Option.map_some, splitAt?_eq]

theorem method?_eq (decoding : Decoding) (owner record : Text) :
    method? decoding owner record = some (Member.method? decoding owner record) := by
  rw [method?, splitSignature?_eq, Member.method?]
  cases Member.splitSignature? record with
  | none => rfl
  | some parts =>
      obtain ⟨lead, list⟩ := parts
      simp only [Option.bind_eq_bind, Option.bind_some, decode?_eq, parameters?_eq]
      cases methodHead? owner (Text.words lead) (Modifiers.decode decoding (Text.words lead)).1
        (Modifiers.decode decoding (Text.words lead)).2 <;> rfl

end Methods

/-- The fields and the methods of the records, in order. -/
def members? (decoding : Decoding) (owner : Text) :
    List Record → Option (List Variable × List Method)
  | [] => some ([], [])
  | r :: rs => do
    let (hereFields, hereMethods) ←
      match r.kind with
      | .variable => (fields? decoding r.value).map (·, [])
      | .method => (method? decoding owner r.value).map ([], ·.toList)
    let (moreFields, moreMethods) ← members? decoding owner rs
    return (hereFields ++ moreFields, hereMethods ++ moreMethods)

theorem members?_eq (decoding : Decoding) (owner : Text) (rs : List Record) :
    members? decoding owner rs =
      some (allFields decoding rs, allMethods decoding owner rs) := by
  induction rs with
  | nil => rfl
  | cons r rs ih =>
      obtain ⟨kind, value, statements⟩ := r
      cases kind with
      | «variable» =>
          simp only [members?, fields?_eq, ih]
          rfl
      | method =>
          simp only [members?, method?_eq, ih]
          cases hmethod : Member.method? decoding owner value <;>
            simp [allFields, allMethods, hmethod]

end Offset

end ClassDiagram
