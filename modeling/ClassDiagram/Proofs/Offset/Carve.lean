import ClassDiagram.Proofs.Declaration.Extent
import ClassDiagram.Proofs.Declaration.Leftover
import ClassDiagram.Proofs.Offset.Loop

/-!
# Cutting out a type

The header of a type, its body and the declarations beside it are cut out of a text at byte
offsets. The offset of the brace is one byte in front of the end of the match, the offset of the
header is the difference that trimming makes, and a piece of the body or a block begins one byte
behind the mark that ended the one before it. All of these are cuts of the text, in the right
order, so that no slice fails and the slices are the parts that the header (`header?_eq`), the body
(`body?_eq`) and the children (`children?_eq`) are made of.
-/

namespace ClassDiagram

open Declaration

namespace Offset

/-! ## The header -/

/-- A header by its offsets. -/
structure Place where
  text : Text
  /-- The offset of the first character. -/
  start : Nat
  /-- The offset of the opening brace. -/
  brace : Nat
  deriving DecidableEq, Repr

/-- The header of the type of this name. A match reaches from the beginning of a run through the
brace behind it. -/
def header? (t name : Text) : Option (Option Place) :=
  match Header.locate? t name with
  | none => some none
  | some h => do
    let start := Text.size h.before
    let stop := Text.size (h.before ++ h.run ++ ['{'])
    let raw ← t.slice? start (stop - 1)
    return some ⟨Text.trim raw, start + (raw.size - (Text.trimStart raw).size), stop - 1⟩

section Header

variable {t name : Text} {h : Header}

theorem size_trimStart (t : Text) :
    Text.size (t.takeWhile Text.isBlank) = t.size - (Text.trimStart t).size := by
  have hsize := congrArg Text.size (List.takeWhile_append_dropWhile (p := Text.isBlank) (l := t))
  rw [Text.size_append] at hsize
  rw [Text.trimStart]
  omega

/-- The header is found at its place. -/
theorem header?_eq (t name : Text) :
    header? t name = some ((Header.locate? t name).map fun h => ⟨h.text, h.start, h.brace⟩) := by
  rw [header?]
  cases hlocate : Header.locate? t name with
  | none => rfl
  | some h =>
      have hbrace : Text.size (h.before ++ h.run ++ ['{']) - 1 = h.brace := by
        rw [Text.size_append, Header.brace]
        rfl
      have hslice : t.slice? (Text.size h.before) h.brace = some h.run := by
        rw [← Header.source_locate? hlocate, Header.source, List.append_assoc]
        exact Text.slice?_part _ _ _ rfl (Text.size_append _ _).symm
      simp only [hbrace, hslice, Option.bind_eq_bind, Option.bind_some, Option.map_some,
        ← size_trimStart]
      rw [← Text.size_append]
      rfl

theorem source_lead (h : Header) :
    h.source = h.lead ++ (Text.trimStart h.run ++ '{' :: h.behind) := by
  have hrun := List.takeWhile_append_dropWhile (p := Text.isBlank) (l := h.run)
  rw [Header.lead, List.append_assoc, ← List.append_assoc (h.run.takeWhile _), Text.trimStart, hrun,
    Header.source, List.append_assoc]

theorem source_brace (h : Header) : h.source = (h.before ++ h.run) ++ '{' :: h.behind := rfl

theorem brace_eq (h : Header) : h.brace = h.start + (Text.trimStart h.run).size := by
  have hsource := congrArg Text.size ((source_brace h).symm.trans (source_lead h))
  simp only [Text.size_append, Text.size_cons] at hsource
  rw [Header.brace, Header.start, Text.size_append]
  omega

end Header

/-! ## The body -/

/-- The state of the walk through a body. -/
structure Walk where
  /-- The blocks that are open inside the body. -/
  depth : Nat := 0
  /-- The offset at which the current piece begins. -/
  start : Nat
  /-- True inside a block that declares a type. -/
  declares : Bool := false
  members : Text := []
  nested : List Text := []
  deriving DecidableEq, Repr

/-- What the walk through a body finds. -/
structure Extract where
  members : Text
  nested : List Text
  /-- The offset of the closing brace, or the size of the text. -/
  stop : Nat
  deriving DecidableEq, Repr

namespace Walk

/-- The walk behind a piece that ends at an offset. -/
def withPiece (w : Walk) (p : Piece) (stop : Nat) : Walk where
  start := stop
  members := w.members ++ p.memberText
  nested := w.nested ++ p.nested?.toList

/-- One byte of a body. -/
def round (t : Text) (w : Walk) (offset : Nat) : Role → Option (Round Walk Extract)
  | .openBrace =>
    if w.depth = 0 then
      (t.slice? w.start offset).map fun lead =>
        .next { w with depth := 1, declares := declaresType lead }
    else some (.next { w with depth := w.depth + 1 })
  | .closeBrace =>
    match w.depth with
    | 0 => (t.slice? w.start offset).map fun last => .done ⟨w.members ++ last, w.nested, offset⟩
    | 1 =>
      (t.slice? w.start (offset + 1)).map fun piece =>
        .next (w.withPiece (.block w.declares piece) (offset + 1))
    | d + 2 => some (.next { w with depth := d + 1 })
  | .semicolon =>
    if w.depth = 0 then
      (t.slice? w.start (offset + 1)).map fun piece =>
        .next (w.withPiece (.member piece) (offset + 1))
    else some (.next w)
  | .openParen | .closeParen | .plain => some (.next w)

/-- A body that never closes takes the rest of the text. -/
def result (t : Text) : Round Walk Extract → Option Extract
  | .next w =>
    (t.sliceFrom? (min w.start t.size)).map fun last => ⟨w.members ++ last, w.nested, t.size⟩
  | .done found => some found

end Walk

/-- The body that the brace at an offset opens. -/
def body? (t : Text) (brace : Nat) : Option Extract :=
  (overBytes t (Walk.round t) { start := brace + 1 } (brace + 1)).bind (Walk.result t)

namespace Walk

/-- What a walk finds when the rest of the body has been read. -/
def found (t : Text) (w : Walk) (b : Body) : Extract :=
  ⟨w.members ++ b.members, w.nested ++ b.nested, b.stop t⟩

theorem found_withPiece (t : Text) (w : Walk) (p : Piece) (stop : Nat) (b : Body) :
    (w.withPiece p stop).found t b = w.found t (b.withPiece p) := by
  rw [found, found, Body.members_withPiece, Body.nested_withPiece, ← List.append_assoc,
    ← List.append_assoc]
  rfl

theorem found_last (t : Text) (w : Walk) (last : Text) (behind : Option (List Glyph)) :
    w.found t ⟨[.member last], behind⟩ =
      ⟨w.members ++ last, w.nested, Body.stop ⟨[], behind⟩ t⟩ := by
  simp [found, Body.members, Body.nested, Body.stop, Piece.memberText, Piece.nested?]

/-- A body ends at the mark that is followed by the text behind it. -/
theorem stop_at_mark {t front rest : Text} {c : Char} (ht : t = front ++ c :: rest)
    (hsize : c.utf8Size = 1) (pieces : List Piece) (pending : Option Quote) :
    Body.stop ⟨pieces, some (Text.glyphsFrom pending rest)⟩ t = front.size := by
  dsimp only [Body.stop]
  rw [Text.chars_glyphsFrom, ht, Text.size_append, Text.size_cons, hsize]
  omega

/-- A walk as the loop that reads a body. -/
def loop (t : Text) : Loop Walk Extract Text Extract where
  round := round t
  result := result t
  keeps front w seen := Behind front w.start seen
  spec w seen gs := w.found t (Body.read w.depth w.declares seen gs)

section Step

variable {t front rest seen : Text} {c : Char} {w : Walk}

theorem stepsAt_openBrace (ht : t = front ++ c :: rest) (h : Behind front w.start seen)
    (hrole : (glyphAt front c).role = .openBrace) : (loop t).StepsAt front c rest w seen := by
  have hlead : t.slice? w.start front.size = some seen.reverse := ht ▸ h.slice? (c :: rest)
  obtain ⟨depth, start, declares, members, nested⟩ := w
  rw [Loop.StepsAt, hrole]
  cases depth with
  | zero =>
      refine .inl ⟨_, c :: seen, congrArg (Option.map _) hlead, h.cons c, fun gs => ?_⟩
      exact congrArg (found t _) (Body.read_open hrole ..)
  | succ depth =>
      refine .inl ⟨_, c :: seen, rfl, h.cons c, fun gs => ?_⟩
      exact congrArg (found t _) (Body.read_open_inside hrole ..)

theorem stepsAt_closeBrace (ht : t = front ++ c :: rest) (h : Behind front w.start seen)
    (hrole : (glyphAt front c).role = .closeBrace) : (loop t).StepsAt front c rest w seen := by
  have hsize : c.utf8Size = 1 := utf8Size_of_role (by rw [hrole]; decide)
  have hlead : t.slice? w.start front.size = some seen.reverse := ht ▸ h.slice? (c :: rest)
  have hpiece : t.slice? w.start (front.size + 1) = some (c :: seen).reverse :=
    ht ▸ h.slice?_through hsize rest
  obtain ⟨depth, start, declares, members, nested⟩ := w
  rw [Loop.StepsAt, hrole]
  match depth with
  | 0 =>
      refine .inr ⟨_, congrArg (Option.map _) hlead, ?_⟩
      simp only [loop, result, Body.read_end hrole, found_last, stop_at_mark ht hsize]
  | 1 =>
      refine .inl ⟨_, [], congrArg (Option.map _) hpiece, .anew hsize, fun gs => ?_⟩
      simp only [loop, Body.read_close_block hrole]
      exact (found_withPiece ..).symm
  | depth + 2 =>
      refine .inl ⟨_, c :: seen, rfl, h.cons c, fun gs => ?_⟩
      exact congrArg (found t _) (Body.read_close_inside hrole ..)

theorem stepsAt_semicolon (ht : t = front ++ c :: rest) (h : Behind front w.start seen)
    (hrole : (glyphAt front c).role = .semicolon) : (loop t).StepsAt front c rest w seen := by
  have hsize : c.utf8Size = 1 := utf8Size_of_role (by rw [hrole]; decide)
  have hpiece : t.slice? w.start (front.size + 1) = some (c :: seen).reverse :=
    ht ▸ h.slice?_through hsize rest
  obtain ⟨depth, start, declares, members, nested⟩ := w
  rw [Loop.StepsAt, hrole]
  cases depth with
  | zero =>
      refine .inl ⟨_, [], congrArg (Option.map _) hpiece, .anew hsize, fun gs => ?_⟩
      simp only [loop, Body.read_semicolon hrole]
      exact (found_withPiece ..).symm
  | succ depth =>
      refine .inl ⟨_, c :: seen, rfl, h.cons c, fun gs => ?_⟩
      exact congrArg (found t _) (Body.read_other (by rw [hrole]; decide) (by rw [hrole]; decide)
        (fun hzero => absurd hzero (Nat.succ_ne_zero _)) ..)

end Step

/-- A walk finds what the body is made of, and no byte stops it. -/
theorem computes (t : Text) : (loop t).Computes t where
  plain w i := rfl
  finish {w seen} h := by
    simp only [loop, result, Nat.min_eq_left h.le_size, h.sliceFrom?, Body.read_nil, found_last]
    rfl
  step {front c rest w seen} ht h := by
    cases hrole : (glyphAt front c).role with
    | openBrace => exact stepsAt_openBrace ht h hrole
    | closeBrace => exact stepsAt_closeBrace ht h hrole
    | semicolon => exact stepsAt_semicolon ht h hrole
    | openParen | closeParen | plain =>
        rw [Loop.StepsAt, hrole]
        refine .inl ⟨_, c :: seen, rfl, h.cons c, fun gs => ?_⟩
        exact congrArg (found t _) (Body.read_other (by rw [hrole]; decide)
          (by rw [hrole]; decide) (fun _ => by rw [hrole]; decide) ..)

end Walk

section Body

variable {t : Text} {brace : Nat}

theorem atBrace_append {front : Text} (hfront : front.size = brace + 1) (rest : Text) :
    Body.atBrace (front ++ rest) brace =
      Body.ofGlyphs (Text.glyphsFrom (Quote.after none front) rest) := by
  rw [Body.atBrace, ← hfront, Text.splitAtByte?_size]
  dsimp only
  rw [Text.glyphs, Text.glyphsFrom_append, List.drop_left' (Text.length_glyphsFrom none front)]

/-- Behind a mark the body is found. -/
theorem body?_eq (h : t.IsCut (brace + 1)) :
    body? t brace = some (let b := Body.atBrace t brace; ⟨b.members, b.nested, b.stop t⟩) := by
  obtain ⟨front, rest, rfl, hfront⟩ := h
  have hkeeps : (Walk.loop (front ++ rest)).keeps front { start := brace + 1 } [] :=
    hfront ▸ Behind.nil front
  have hrun := (Walk.computes (front ++ rest)).overBytes_bind rfl hkeeps
  rw [hfront] at hrun
  rw [atBrace_append hfront]
  exact hrun

/-- A body reaches from its brace to one that closes it, or to the end of the text. -/
theorem exists_stop {front rest : Text} (ht : t = front ++ rest)
    (hfront : front.size = brace + 1) :
    let b := Body.atBrace t brace
    ∃ inner last, rest = inner ++ last ∧ b.stop t = (front ++ inner).size ∧
      (b.behind = none ∧ last = [] ∨
        ∃ c gs, b.behind = some gs ∧ last = c :: Glyph.chars gs ∧ c.utf8Size = 1) := by
  subst ht
  dsimp only
  rw [atBrace_append hfront, Body.ofGlyphs]
  obtain ⟨taken, hreaches, -⟩ :=
    Body.read_holds 0 false [] (Text.glyphsFrom (Quote.after none front) rest)
  have hchars := Text.chars_glyphsFrom (Quote.after none front) rest
  rw [Body.stop]
  generalize Text.glyphsFrom (Quote.after none front) rest = gs at hreaches hchars
  generalize (Body.read 0 false [] gs).behind = behind at hreaches ⊢
  subst hchars
  cases hreaches with
  | @closed _ after closing hinner hclosing =>
      have hsize : closing.char.utf8Size = 1 := utf8Size_of_role (by rw [hclosing]; decide)
      refine ⟨Glyph.chars taken, closing.char :: Glyph.chars after, by simp, ?_,
        .inr ⟨_, _, rfl, rfl, hsize⟩⟩
      simp only [Glyph.chars_append, Glyph.chars_cons, Text.size_append, Text.size_cons, hsize]
      omega
  | unclosed hopen => exact ⟨Glyph.chars taken, [], by simp, rfl, .inl ⟨rfl, rfl⟩⟩

end Body

/-! ## The declarations beside a type -/

/-- The state of the search for declarations. -/
structure Search where
  /-- The braces that are open. -/
  depth : Nat := 0
  /-- The offset behind the last block or statement. -/
  start : Nat := 0
  files : List SourceFile := []

namespace Search

/-- One byte of the text around a type. -/
def round (parent : String) (t : Text) (s : Search) (offset : Nat) :
    Role → Option (Round Search Fault)
  | .openBrace => some (.next { s with depth := s.depth + 1 })
  | .closeBrace =>
    match s.depth with
    | 0 => some (.next s)
    | 1 =>
      (t.slice? s.start (offset + 1)).map fun block =>
        match child parent (Text.trim block) with
        | .ok file => .next { start := offset + 1, files := s.files ++ [file] }
        | .error fault => .done fault
    | d + 2 => some (.next { s with depth := d + 1 })
  | .semicolon => some (.next (if s.depth = 0 then { s with start := offset + 1 } else s))
  | .openParen | .closeParen | .plain => some (.next s)

/-- The files that the search has found, or the fault that ended it. -/
def result : Round Search Fault → Option (Except Fault (List SourceFile))
  | .next s => some (.ok s.files)
  | .done fault => some (.error fault)

end Search

/-- The source files of the declarations beside a type. -/
def children? (parent : String) (t : Text) : Option (Except Fault (List SourceFile)) :=
  (overBytes t (Search.round parent t) {} 0).bind Search.result

namespace Search

/-- What a search finds among the blocks that are left. -/
def found (parent : String) (s : Search) (bs : List Text) : Except Fault (List SourceFile) :=
  ((bs.map Text.trim).mapM (child parent)).map (s.files ++ ·)

theorem found_nil (parent : String) (s : Search) : s.found parent [] = .ok s.files :=
  congrArg Except.ok (List.append_nil _)

theorem found_cons (parent : String) (s : Search) (b : Text) (bs : List Text) (start : Nat) :
    s.found parent (b :: bs) =
      match child parent (Text.trim b) with
      | .ok file => found parent { start, files := s.files ++ [file] } bs
      | .error fault => .error fault := by
  rw [found, List.map_cons, List.mapM_cons]
  cases child parent (Text.trim b) with
  | error fault => rfl
  | ok file =>
      dsimp only [found]
      cases (bs.map Text.trim).mapM (child parent) with
      | error fault => rfl
      | ok files => exact congrArg Except.ok (List.append_assoc _ [file] files).symm

/-- A search as the loop that finds the blocks. -/
def loop (parent : String) (t : Text) :
    Loop Search Fault Text (Except Fault (List SourceFile)) where
  round := round parent t
  result := result
  keeps front s seen := Behind front s.start seen
  spec s seen gs := s.found parent (blocksFrom s.depth seen gs)

section Step

variable {parent : String} {t front rest seen : Text} {c : Char} {s : Search}

/-- A block is cut out and read. -/
theorem stepsAt_block (ht : t = front ++ c :: rest) (h : Behind front s.start seen)
    (hrole : (glyphAt front c).role = .closeBrace) (hdepth : s.depth = 1) :
    (loop parent t).StepsAt front c rest s seen := by
  have hsize : c.utf8Size = 1 := utf8Size_of_role (by rw [hrole]; decide)
  have hblock : t.slice? s.start (front.size + 1) = some (c :: seen).reverse :=
    ht ▸ h.slice?_through hsize rest
  have hspec (gs : List Glyph) :=
    found_cons parent s (c :: seen).reverse (blocksFrom 0 [] gs) (front.size + 1)
  obtain ⟨depth, start, files⟩ := s
  subst hdepth
  rw [Loop.StepsAt, hrole]
  simp only [loop, round, hblock, Option.map_some, blocksFrom_cons, blockStep_close_block hrole]
  cases hchild : child parent (Text.trim (c :: seen).reverse) with
  | ok file =>
      refine .inl ⟨_, [], rfl, .anew hsize, fun gs => (hspec gs).trans ?_⟩
      rw [hchild]
  | error fault =>
      refine .inr ⟨fault, rfl, congrArg some ((hspec _).trans ?_).symm⟩
      rw [hchild]

theorem stepsAt_closeBrace (ht : t = front ++ c :: rest) (h : Behind front s.start seen)
    (hrole : (glyphAt front c).role = .closeBrace) :
    (loop parent t).StepsAt front c rest s seen := by
  by_cases hdepth : s.depth = 1
  · exact stepsAt_block ht h hrole hdepth
  · obtain ⟨depth, start, files⟩ := s
    rw [Loop.StepsAt, hrole]
    match depth with
    | 0 =>
        refine .inl ⟨_, c :: seen, rfl, h.cons c, fun gs => ?_⟩
        simp only [loop, blocksFrom_cons, blockStep, hrole]
        rfl
    | 1 => exact absurd rfl hdepth
    | depth + 2 =>
        refine .inl ⟨_, c :: seen, rfl, h.cons c, fun gs => ?_⟩
        simp only [loop, blocksFrom_cons, blockStep_close_inside hrole]
        rfl

theorem stepsAt_semicolon (h : Behind front s.start seen)
    (hrole : (glyphAt front c).role = .semicolon) :
    (loop parent t).StepsAt front c rest s seen := by
  have hsize : c.utf8Size = 1 := utf8Size_of_role (by rw [hrole]; decide)
  obtain ⟨depth, start, files⟩ := s
  rw [Loop.StepsAt, hrole]
  cases depth with
  | zero =>
      refine .inl ⟨_, [], rfl, .anew hsize, fun gs => ?_⟩
      simp only [loop, blocksFrom_cons, blockStep_semicolon hrole]
      rfl
  | succ depth =>
      refine .inl ⟨_, c :: seen, rfl, h.cons c, fun gs => ?_⟩
      simp only [loop, blocksFrom_cons, blockStep, hrole]
      rfl

end Step

/-- A search finds the declarations that the blocks make, and no byte stops it. -/
theorem computes (parent : String) (t : Text) : (loop parent t).Computes t where
  plain s i := rfl
  finish {s seen} h := congrArg some (found_nil parent s).symm
  step {front c rest s seen} ht h := by
    cases hrole : (glyphAt front c).role with
    | openBrace =>
        rw [Loop.StepsAt, hrole]
        refine .inl ⟨_, c :: seen, rfl, h.cons c, fun gs => ?_⟩
        simp only [loop, blocksFrom_cons, blockStep_open hrole]
        rfl
    | closeBrace => exact stepsAt_closeBrace ht h hrole
    | semicolon => exact stepsAt_semicolon h hrole
    | openParen | closeParen | plain =>
        rw [Loop.StepsAt, hrole]
        refine .inl ⟨_, c :: seen, rfl, h.cons c, fun gs => ?_⟩
        dsimp only [loop]
        rw [blocksFrom_cons, blockStep_other (by rw [hrole]; decide) (by rw [hrole]; decide)
          fun _ => by rw [hrole]; decide]
        rfl

end Search

/-- The declarations beside a type are found. -/
theorem children?_eq (parent : String) (t : Text) :
    children? parent t = some (children parent t) := by
  have hkeeps : (Search.loop parent t).keeps [] {} [] := Behind.nil []
  have hrun := (Search.computes parent t).overBytes_bind rfl hkeeps
  refine hrun.trans (congrArg some ?_)
  dsimp only [Search.loop, Search.found]
  rw [children, blocks, Text.glyphs, Quote.after_nil]
  cases ((blocksFrom 0 [] (Text.glyphsFrom none t)).map Text.trim).mapM (child parent) <;> rfl

end Offset

end ClassDiagram
