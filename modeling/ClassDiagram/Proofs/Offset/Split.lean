import ClassDiagram.Declaration.Signature
import ClassDiagram.Member.Parameter
import ClassDiagram.Proofs.Literal.Span
import ClassDiagram.Proofs.Offset.Loop

/-!
# Splitting lists

A list of supertypes and a list of parameters are split in the same way: a piece reaches from one
byte behind a comma up to the next comma outside brackets, and the last one to the end of the text.
The offsets are those of characters, and a comma is one byte, so all pieces exist
(`piecesFrom?_eq`), in a list of types (`typeNames?_eq`) as in one of parameters (`parameters?_eq`).
-/

namespace ClassDiagram

open Declaration Member

namespace Offset

/-! ## Pieces -/

/-- How a list is split. -/
structure Splitter where
  /-- The offsets at which a character says nothing. -/
  hides : Nat → Bool
  /-- The depth of brackets behind a character. -/
  next : Nat → Char → Nat

/-- The pieces of a text between the commas outside brackets. The current piece begins at `start`,
and what is left of the text at `offset`. -/
def piecesFrom? (t : Text) (splitter : Splitter) (depth start offset : Nat) :
    Text → Option (List Text)
  | [] => (t.sliceFrom? start).map fun piece => [piece]
  | c :: rest =>
    if splitter.hides offset then piecesFrom? t splitter depth start (offset + c.utf8Size) rest
    else if c == ',' && depth == 0 then do
      let piece ← t.slice? start offset
      let pieces ← piecesFrom? t splitter depth (offset + 1) (offset + c.utf8Size) rest
      return piece :: pieces
    else piecesFrom? t splitter (splitter.next depth c) start (offset + c.utf8Size) rest

/-- Pieces of a text by their characters, given the part of the text that has been read. -/
structure Splits (t : Text) (splitter : Splitter) (pieces : Nat → Text → Text → List Text) :
    Prop where
  nil : ∀ depth, pieces depth t [] = [[]]
  cons : ∀ {front c rest}, t = front ++ c :: rest → ∀ depth, pieces depth front (c :: rest) =
    if splitter.hides front.size then Text.consWord c (pieces depth (front ++ [c]) rest)
    else if c == ',' && depth == 0 then [] :: pieces depth (front ++ [c]) rest
    else Text.consWord c (pieces (splitter.next depth c) (front ++ [c]) rest)

/-- The pieces with the characters seen in front of the first one. -/
def seenBefore (seen : Text) (pieces : List Text) : List Text :=
  seen.foldl (fun pieces c => Text.consWord c pieces) pieces

theorem seenBefore_cons (seen piece : Text) (pieces : List Text) :
    seenBefore seen (piece :: pieces) = (seen.reverse ++ piece) :: pieces := by
  induction seen generalizing piece with
  | nil => rfl
  | cons c seen ih =>
      rw [seenBefore, List.foldl_cons, Text.consWord_cons, ← seenBefore, ih, List.reverse_cons,
        List.append_assoc, List.singleton_append]

theorem piecesFrom?_eq {t front rest seen : Text} {splitter : Splitter}
    {pieces : Nat → Text → Text → List Text} (h : Splits t splitter pieces) {depth start : Nat}
    (ht : t = front ++ rest) (hbehind : Behind front start seen) :
    piecesFrom? t splitter depth start front.size rest =
      some (seenBefore seen (pieces depth front rest)) := by
  induction rest generalizing front seen depth start with
  | nil =>
      rw [List.append_nil] at ht
      subst ht
      rw [piecesFrom?, hbehind.sliceFrom?, h.nil, seenBefore_cons, List.append_nil]
      rfl
  | cons c rest ih =>
      have hrest : t = (front ++ [c]) ++ rest := by rw [ht, List.append_assoc]; rfl
      have hsize : front.size + c.utf8Size = (front ++ [c]).size := by
        rw [Text.size_append, Text.size_cons, Text.size_nil, Nat.add_zero]
      rw [piecesFrom?, h.cons ht, hsize]
      split
      · exact ih hrest (hbehind.cons c)
      split
      · rename_i hcomma
        have hc : c = ',' := by simp_all
        have hpiece : t.slice? start front.size = some seen.reverse :=
          ht ▸ hbehind.slice? (c :: rest)
        subst hc
        rw [hpiece, ih hrest (.anew rfl), seenBefore_cons, List.append_nil]
        rfl
      · exact ih hrest (hbehind.cons c)

/-- All pieces of a text exist. -/
theorem piecesFrom?_zero {t : Text} {splitter : Splitter}
    {pieces : Nat → Text → Text → List Text} (h : Splits t splitter pieces) :
    piecesFrom? t splitter 0 0 0 t = some (pieces 0 [] t) :=
  piecesFrom?_eq h (List.nil_append t).symm (.nil [])

/-! ## Lists of types -/

/-- The bare names of a list of types. -/
def typeNames? (list : Text) : Option (List Text) :=
  (piecesFrom? list ⟨fun _ => false, angleStep⟩ 0 0 0 list).map fun pieces =>
    (pieces.map fun piece => bareName (Text.trim piece)).filter fun name => !name.isEmpty

theorem typeNames?_eq (list : Text) : typeNames? list = some (typeNames list) := by
  have hsplits : Splits list ⟨fun _ => false, angleStep⟩
      fun depth _ rest => listPieces depth rest :=
    ⟨fun _ => rfl, fun _ _ => rfl⟩
  rw [typeNames?, piecesFrom?_zero hsplits]
  rfl

/-- The names behind a keyword. -/
def namesAfter? (keyword : String) (words : List Text) : Option (Option (List Text)) :=
  match Signature.wordAfter? keyword words with
  | none => some none
  | some list => (typeNames? list).map some

/-- The header of a type. -/
def signature? (header : Text) : Option (Except SyntaxFault Signature) :=
  let words := topWords header
  match Signature.kindOf header words with
  | .error fault => some (.error fault)
  | .ok kind => do
    let extended ← if kind = .enum then some none else namesAfter? "extends" words
    let implemented ← if kind.isClassLike then namesAfter? "implements" words else some none
    return .ok ⟨kind, extended, implemented⟩

theorem namesAfter?_eq (keyword : String) (words : List Text) :
    namesAfter? keyword words = some ((Signature.wordAfter? keyword words).map typeNames) := by
  rw [namesAfter?]
  cases Signature.wordAfter? keyword words with
  | none => rfl
  | some list => exact congrArg (Option.map some) (typeNames?_eq list)

theorem signature?_eq (header : Text) : signature? header = some (Signature.ofHeader header) := by
  rw [signature?, Signature.ofHeader]
  dsimp only
  cases Signature.kindOf header (topWords header) with
  | error fault => rfl
  | ok kind =>
      simp only [namesAfter?_eq]
      cases kind <;> rfl

/-! ## Lists of parameters -/

/-- The parameters of a list. -/
def parameters? (t : Text) : Option (List Parameter) :=
  (piecesFrom? t ⟨Span.anyHolds t.spans, fun depth c => bracketStep depth ⟨c, false⟩⟩ 0 0 0 t).map
    fun pieces => pieces.filterMap parameter?

theorem parameters?_eq (t : Text) : parameters? t = some (parameters t) := by
  have hsplits : Splits t ⟨Span.anyHolds t.spans, fun depth c => bracketStep depth ⟨c, false⟩⟩
      fun depth front rest =>
        parameterPieces depth (Text.glyphsFrom (Quote.after none front) rest) := by
    refine ⟨fun _ => rfl, fun {front c rest} ht depth => ?_⟩
    have hholds : Span.anyHolds t.spans front.size = Quote.encloses (Quote.after none front) c :=
      ht ▸ Text.anyHolds_spans front c rest
    simp only [glyphsFrom_cons, parameterPieces, hholds, glyphAt]
    cases Quote.encloses (Quote.after none front) c <;> rfl
  rw [parameters?, piecesFrom?_zero hsplits]
  rfl

end Offset

end ClassDiagram
