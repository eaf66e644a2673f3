import ClassDiagram.Proofs.Member.Scan
import ClassDiagram.Proofs.Offset.Annotation
import ClassDiagram.Proofs.Offset.Loop

/-!
# Cutting out members

The scan for members remembers two offsets, that of the current member and that of the current
statement, and each time it meets a mark it cuts from one of them to the mark or through it. Both
offsets are those behind a mark (`Cursor.Keeps`), so the texts are there, and they are those that
the scan of characters has gathered (`records?_eq`).
-/

namespace ClassDiagram

open Member

namespace Offset

/-! ## What stands in front of a mark -/

/-- True if a plain assignment stands before any parenthesis. -/
def assignsFirst? (t : Text) : Option Bool :=
  (dropAnnotations? t).map fun rest => Text.includes (rest.takeWhile (· != '(')) " = ".toList

/-- True if the text looks like the signature of a method. -/
def isSignature? (t : Text) : Option Bool := do
  let rest ← dropAnnotations? t
  let assigns ← assignsFirst? rest
  return rest.contains '(' && !assigns

/-- What a brace behind a text encloses. -/
def opened? (lead : Text) : Option Enclosure := do
  let rest ← dropAnnotations? lead
  if (Text.trim rest).isEmpty || Text.trim rest == "static".toList then return .initializer
  else
    let assigns ← assignsFirst? lead
    return if assigns then .fieldValue else .method

section Lead

variable (t : Text)

theorem dropAnnotations_dropAnnotations :
    dropAnnotations (dropAnnotations t) = dropAnnotations t := by
  fun_induction dropAnnotations t with
  | case1 t rest hmark ih => exact ih
  | case2 t hplain => rw [dropAnnotations_trimStart, dropAnnotations_of_head? (head?_ne hplain)]

theorem assignsFirst?_eq : assignsFirst? t = some (assignsFirst t) := by
  rw [assignsFirst?, dropAnnotations?_eq]
  rfl

theorem isSignature?_eq : isSignature? t = some (isSignature t) := by
  rw [isSignature?, dropAnnotations?_eq, isSignature]
  dsimp only [Option.bind_eq_bind, Option.bind_some]
  rw [assignsFirst?_eq, assignsFirst, dropAnnotations_dropAnnotations, assignsFirst]
  rfl

theorem opened?_eq : opened? t = some (.opened t) := by
  rw [opened?, dropAnnotations?_eq, Enclosure.opened, opensInitializer]
  dsimp only [Option.bind_eq_bind, Option.bind_some]
  split
  · rfl
  · rw [assignsFirst?_eq]
    cases assignsFirst t <;> rfl

end Lead

/-! ## The scan -/

/-- The state of the scan for members. -/
structure Cursor where
  depth : Nat := 0
  parens : Nat := 0
  /-- The offset at which the current member begins. -/
  start : Nat := 0
  /-- The offset at which the current statement begins. -/
  statementStart : Nat := 0
  enclosure : Enclosure := .none
  statements : List Text := []
  records : List Record := []

namespace Cursor

/-- True where parentheses between members hide braces and semicolons. -/
def hidden (c : Cursor) : Bool := c.depth == 0 && c.parens > 0

/-- An opening brace. -/
def openBrace (t : Text) (c : Cursor) (offset : Nat) : Option Cursor :=
  if c.depth = 0 then do
    let lead ← t.slice? c.start offset
    let enclosure ← opened? lead
    return { c with depth := 1, statementStart := offset + 1, enclosure }
  else some { c with depth := c.depth + 1, statementStart := offset + 1 }

/-- The cursor behind a member, or behind an initializer block. -/
def anew (c : Cursor) (offset : Nat) (found : List Record) : Cursor where
  parens := c.parens
  start := offset + 1
  statementStart := offset + 1
  records := c.records ++ found

/-- The cursor behind a brace that closes no member. -/
def inner (c : Cursor) (offset : Nat) : Cursor :=
  { c with depth := c.depth - 1, statementStart := offset + 1 }

/-- The cursor behind a statement; blank ones do not count. -/
def addStatement (c : Cursor) (offset : Nat) (statement : Text) : Cursor :=
  { c with
    statementStart := offset + 1
    statements :=
      if (Text.trim statement).isEmpty then c.statements
      else c.statements ++ [Text.trim statement] }

/-- A closing brace. -/
def closeBrace (t : Text) (c : Cursor) (offset : Nat) : Option Cursor :=
  if c.depth - 1 = 0 then
    match c.enclosure with
    | .method =>
      (t.slice? c.start (offset + 1)).map fun value =>
        c.anew offset [⟨.method, Text.trim value, c.statements⟩]
    | .initializer => (t.slice? c.start (offset + 1)).map fun _ => c.anew offset []
    | .none | .fieldValue => some (c.inner offset)
  else some (c.inner offset)

/-- A semicolon. -/
def semicolon (t : Text) (c : Cursor) (offset : Nat) : Option Cursor :=
  if c.depth = 0 then do
    let lead ← t.slice? c.start offset
    let signature ← isSignature? lead
    let value ← t.slice? c.start (offset + 1)
    let kind := if c.enclosure = .none && signature then .method else .variable
    return { c.anew offset [⟨kind, Text.trim value, []⟩] with statements := c.statements }
  else
    match c.enclosure with
    | .method | .initializer => (t.slice? c.statementStart offset).map (c.addStatement offset)
    | .none | .fieldValue => some c

/-- The cursor behind a byte of a member text. -/
def advance (t : Text) (c : Cursor) (offset : Nat) : Role → Option Cursor
  | .plain => some c
  | .openParen => some (if c.depth = 0 then { c with parens := c.parens + 1 } else c)
  | .closeParen => some (if c.depth = 0 then { c with parens := c.parens - 1 } else c)
  | .openBrace => if c.hidden then some c else c.openBrace t offset
  | .closeBrace => if c.hidden then some c else c.closeBrace t offset
  | .semicolon => if c.hidden then some c else c.semicolon t offset

/-- One byte of a member text. -/
def round (t : Text) (c : Cursor) (offset : Nat) (role : Role) : Option (Round Cursor Empty) :=
  (c.advance t offset role).map .next

/-- What is left at the end is cut off and is no member. -/
def result (t : Text) : Round Cursor Empty → Option (List Record)
  | .next c => (t.sliceFrom? (min c.start t.size)).map fun _ => c.records

end Cursor

/-- The members of a member text. -/
def records? (t : Text) : Option (List Record) :=
  (overBytes t (Cursor.round t) {} 0).bind (Cursor.result t)

namespace Cursor

/-- A cursor and a scan that have read the same text. Parentheses are open only outside of braces,
and statements are gathered only inside of them. -/
structure Keeps (front : Text) (c : Cursor) (s : Scan) : Prop where
  depth : c.depth = s.depth
  parens : c.parens = s.parens
  enclosure : c.enclosure = s.enclosure
  statements : c.statements = s.statements.reverse
  member : Behind front c.start s.seen
  statement : Behind front c.statementStart s.statement
  outside : s.depth = 0 → s.enclosure ≠ .method ∧ s.enclosure ≠ .initializer
  inside : s.depth ≠ 0 → s.parens = 0
  gathers : s.enclosure ≠ .method → s.enclosure ≠ .initializer → s.statements = []

section Step

variable {t front rest : Text} {c : Cursor} {s : Scan} {mark : Char}

theorem Keeps.hidden_eq (h : Keeps front c s) : c.hidden = s.hidden := by
  rw [hidden, Scan.hidden, h.depth, h.parens]

/-- A character that says nothing is only remembered. -/
theorem Keeps.take (h : Keeps front c s) (mark : Char) : Keeps (front ++ [mark]) c (s.take mark) :=
  { h with
    member := h.member.cons mark
    statement := h.statement.cons mark }

/-- What a mark does to a cursor and to a scan. -/
def Agrees (front : Text) (c : Cursor) (after : Option Cursor) (next : Scan × Option Segment) :
    Prop :=
  ∃ c', after = some c' ∧ Keeps front c' next.1 ∧
    c'.records = c.records ++ next.2.toList.filterMap Segment.record?

theorem Keeps.parens_eq_zero (h : Keeps front c s) (hhidden : s.hidden = false) :
    s.parens = 0 := by
  by_cases hdepth : s.depth = 0
  · simp only [Scan.hidden, hdepth, beq_self_eq_true, Bool.true_and, decide_eq_false_iff_not]
      at hhidden
    omega
  · exact h.inside hdepth

theorem Keeps.agrees_openBrace (h : Keeps front c s) (ht : t = front ++ mark :: rest)
    (hsize : mark.utf8Size = 1) (hhidden : s.hidden = false) :
    Agrees (front ++ [mark]) c (c.openBrace t front.size) (s.openBrace mark, none) := by
  have hparens := h.parens_eq_zero hhidden
  have hmember := h.member.cons mark
  rw [openBrace, h.depth]
  by_cases hdepth : s.depth = 0
  · have hlead : t.slice? c.start front.size = some s.seen.reverse := ht ▸ h.member.slice? _
    have hnone := h.gathers (h.outside hdepth).1 (h.outside hdepth).2
    rw [if_pos hdepth, hlead]
    simp only [Option.bind_eq_bind, Option.bind_some, opened?_eq]
    refine ⟨_, rfl, ?_, (List.append_nil _).symm⟩
    exact {
      depth := by simp [Scan.openBrace, hdepth]
      parens := h.parens
      enclosure := (if_pos hdepth).symm
      statements := h.statements
      member := hmember
      statement := .anew hsize
      outside := (absurd · (Nat.succ_ne_zero _))
      inside := fun _ => hparens
      gathers := fun _ _ => hnone }
  · rw [if_neg hdepth]
    refine ⟨_, rfl, ?_, (List.append_nil _).symm⟩
    have henclosure : (s.openBrace mark).enclosure = s.enclosure := if_neg hdepth
    exact {
      depth := rfl
      parens := h.parens
      enclosure := h.enclosure.trans henclosure.symm
      statements := h.statements
      member := hmember
      statement := .anew hsize
      outside := (absurd · (Nat.succ_ne_zero _))
      inside := fun _ => hparens
      gathers := henclosure ▸ h.gathers }

/-- Behind a member nothing is remembered. -/
theorem Keeps.anew (hsize : mark.utf8Size = 1) (hparens : c.parens = 0) (found : List Record) :
    Keeps (front ++ [mark]) (c.anew front.size found) Scan.fresh where
  depth := rfl
  parens := hparens
  enclosure := rfl
  statements := rfl
  member := .anew hsize
  statement := .anew hsize
  outside _ := by decide
  inside _ := rfl
  gathers _ _ := rfl

theorem Keeps.agrees_closeBrace (h : Keeps front c s) (ht : t = front ++ mark :: rest)
    (hsize : mark.utf8Size = 1) (hhidden : s.hidden = false) :
    Agrees (front ++ [mark]) c (c.closeBrace t front.size) (s.closeBrace mark) := by
  have hparens := h.parens_eq_zero hhidden
  have hpiece : t.slice? c.start (front.size + 1) = some (mark :: s.seen).reverse :=
    ht ▸ h.member.slice?_through hsize rest
  have hinner (houtside : s.depth ≤ 1 → s.enclosure ≠ .method ∧ s.enclosure ≠ .initializer) :
      Keeps (front ++ [mark]) (c.inner front.size)
        { s.take mark with depth := s.depth - 1, statement := [] } :=
    { h.take mark with
      depth := congrArg (· - 1) h.depth
      statement := .anew hsize
      outside := fun hzero => houtside (Nat.sub_eq_zero_iff_le.mp hzero)
      inside := fun _ => hparens }
  have hfresh (found : List Record) :
      Keeps (front ++ [mark]) (c.anew front.size found) Scan.fresh :=
    .anew hsize (h.parens.trans hparens) found
  rw [closeBrace, Scan.closeBrace, hpiece, h.enclosure]
  by_cases hdepth : s.depth ≤ 1
  · rw [if_pos hdepth, if_pos (by rw [h.depth]; omega)]
    cases hs : s.enclosure with
    | method => exact ⟨_, rfl, hfresh _, by rw [h.statements]; rfl⟩
    | initializer => exact ⟨_, rfl, hfresh _, rfl⟩
    | none | fieldValue =>
        exact ⟨_, rfl, hinner fun _ => by rw [hs]; decide, (List.append_nil _).symm⟩
  · rw [if_neg hdepth, if_neg (by rw [h.depth]; omega)]
    exact ⟨_, rfl, hinner (absurd · hdepth), (List.append_nil _).symm⟩

theorem Keeps.agrees_semicolon (h : Keeps front c s) (ht : t = front ++ mark :: rest)
    (hsize : mark.utf8Size = 1) (hhidden : s.hidden = false) :
    Agrees (front ++ [mark]) c (c.semicolon t front.size) (s.semicolon mark) := by
  have hparens := h.parens_eq_zero hhidden
  have hlead : t.slice? c.start front.size = some s.seen.reverse := ht ▸ h.member.slice? _
  have hpiece : t.slice? c.start (front.size + 1) = some (mark :: s.seen).reverse :=
    ht ▸ h.member.slice?_through hsize rest
  have hstatement : t.slice? c.statementStart front.size = some s.statement.reverse :=
    ht ▸ h.statement.slice? _
  rw [semicolon, Scan.semicolon, h.depth, hlead, hpiece, hstatement, h.enclosure]
  by_cases hdepth : s.depth = 0
  · rw [if_pos hdepth, if_pos hdepth]
    simp only [Option.bind_eq_bind, Option.bind_some, isSignature?_eq]
    have hstatements : c.statements = [] := by
      rw [h.statements, h.gathers (h.outside hdepth).1 (h.outside hdepth).2]
      rfl
    have hfresh (found : List Record) : Keeps (front ++ [mark])
        { c.anew front.size found with statements := c.statements } Scan.fresh := by
      rw [hstatements]
      exact .anew hsize (h.parens.trans hparens) found
    split
    · exact ⟨_, rfl, hfresh _, rfl⟩
    · exact ⟨_, rfl, hfresh _, rfl⟩
  · rw [if_neg hdepth, if_neg hdepth]
    have hadd (hgathers : s.enclosure = .method ∨ s.enclosure = .initializer) :
        Keeps (front ++ [mark]) (c.addStatement front.size s.statement.reverse)
          { s.take mark with statement := [], statements := s.endStatement } :=
      { h.take mark with
        statements := by
          rw [addStatement, Scan.endStatement, h.statements]
          split
          · rfl
          · exact List.reverse_cons.symm
        statement := .anew hsize
        gathers := fun hmethod hinitializer =>
          absurd hgathers (not_or.mpr ⟨hmethod, hinitializer⟩) }
    cases hs : s.enclosure with
    | method => exact ⟨_, rfl, hadd (.inl hs), (List.append_nil _).symm⟩
    | initializer => exact ⟨_, rfl, hadd (.inr hs), (List.append_nil _).symm⟩
    | none | fieldValue => exact ⟨_, rfl, h.take mark, (List.append_nil _).symm⟩

/-- Parentheses are counted alike. -/
theorem Keeps.agrees_paren (h : Keeps front c s) (mark : Char) (next : Nat → Nat) :
    Agrees (front ++ [mark]) c
      (some (if c.depth = 0 then { c with parens := next c.parens } else c))
      (if s.depth = 0 then { s.take mark with parens := next s.parens } else s.take mark,
        none) := by
  by_cases hdepth : s.depth = 0
  · rw [if_pos hdepth, if_pos (h.depth.trans hdepth)]
    exact ⟨_, rfl,
      { h.take mark with
        parens := congrArg next h.parens
        inside := fun hinside => absurd hdepth hinside },
      (List.append_nil _).symm⟩
  · rw [if_neg hdepth, if_neg (h.depth ▸ hdepth)]
    exact ⟨_, rfl, h.take mark, (List.append_nil _).symm⟩

/-- A cursor and a scan go on alike. -/
theorem Keeps.agrees (h : Keeps front c s) (ht : t = front ++ mark :: rest) :
    Agrees (front ++ [mark]) c (c.advance t front.size (glyphAt front mark).role)
      (s.step (glyphAt front mark)) := by
  have htake : Agrees (front ++ [mark]) c (some c) (s.take mark, none) :=
    ⟨c, rfl, h.take mark, (List.append_nil _).symm⟩
  have hsize : (glyphAt front mark).role ≠ .plain → mark.utf8Size = 1 := utf8Size_of_role
  cases hrole : (glyphAt front mark).role with
  | plain =>
      simp only [advance, Scan.step, hrole]
      exact htake
  | openParen =>
      simp only [advance, Scan.step, hrole]
      exact h.agrees_paren mark (· + 1)
  | closeParen =>
      simp only [advance, Scan.step, hrole]
      exact h.agrees_paren mark (· - 1)
  | openBrace =>
      rw [hrole] at hsize
      simp only [advance, Scan.step, hrole, h.hidden_eq]
      cases hhidden : s.hidden with
      | true => exact htake
      | false => exact h.agrees_openBrace ht (hsize (by decide)) hhidden
  | closeBrace =>
      rw [hrole] at hsize
      simp only [advance, Scan.step, hrole, h.hidden_eq]
      cases hhidden : s.hidden with
      | true => exact htake
      | false => exact h.agrees_closeBrace ht (hsize (by decide)) hhidden
  | semicolon =>
      rw [hrole] at hsize
      simp only [advance, Scan.step, hrole, h.hidden_eq]
      cases hhidden : s.hidden with
      | true => exact htake
      | false => exact h.agrees_semicolon ht (hsize (by decide)) hhidden

end Step

/-- A cursor as the loop that finds the members. -/
def loop (t : Text) : Loop Cursor Empty Scan (List Record) where
  round := round t
  result := result t
  keeps := Keeps
  spec c s gs := c.records ++ (s.segments gs).filterMap Segment.record?

/-- A cursor finds the members that a scan finds, and no byte stops it. -/
theorem computes (t : Text) : (loop t).Computes t where
  plain c i := rfl
  finish {c s} h := by
    simp only [loop, result, Nat.min_eq_left h.member.le_size, h.member.sliceFrom?]
    exact congrArg some (List.append_nil _).symm
  step {front mark rest c s} ht h := by
    obtain ⟨c', hadvance, hkeeps, hrecords⟩ := h.agrees ht
    refine .inl ⟨c', _, congrArg (Option.map _) hadvance, hkeeps, fun gs => ?_⟩
    dsimp only [loop]
    rw [Scan.segments, List.filterMap_append, hrecords, List.append_assoc]

end Cursor

/-- The members of a member text are found. -/
theorem records?_eq (t : Text) : records? t = some (records t) := by
  have hkeeps : (Cursor.loop t).keeps [] {} Scan.fresh :=
    ⟨rfl, rfl, rfl, rfl, .nil [], .nil [], fun _ => by decide, fun _ => rfl, fun _ _ => rfl⟩
  exact (Cursor.computes t).overBytes_bind rfl hkeeps

end Offset

end ClassDiagram
