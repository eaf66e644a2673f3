import ClassDiagram.Proofs.Declaration.Diversion
import Mathlib.Algebra.GroupWithZero.Nat
import Mathlib.Order.Bounds.Basic

/-!
# The extent of a body

A body reads on to the brace that closes it, or to the end of the text when no brace does, and
all text up to there belongs to one of its pieces (`Body.read_reaches`). In front of the closing
brace some brace is open at every place, so it is the first at which the braces of the text
balance, literals left aside (`Body.atBrace_extent`). A nested declaration is taken out as a
whole, from the end of the piece before it to the first place where its own braces balance
(`IsBlock`).
-/

namespace ClassDiagram

namespace Declaration

/-! ## Where braces balance -/

/-- Glyphs close as many braces as they open, literals left aside. -/
def Even (gs : List Glyph) : Prop :=
  gs.countP (·.role = .openBrace) = gs.countP (·.role = .closeBrace)

/-- From the character at the byte offset `start` of a text to a later one at `stop` as many
braces are closed as are opened. -/
def BalancesAt (t : Text) (start stop : Nat) : Prop :=
  ∃ front span mark behind, t.glyphs = front ++ (span ++ mark :: behind) ∧
    Text.size (Glyph.chars front) = start ∧ start < stop ∧
    start + Text.size (Glyph.chars span) = stop ∧ Even (span ++ [mark])

/-- A block by itself, and the text in front of its first brace, which has no brace and no
semicolon. Of the texts that the block begins with and that reach behind that brace, the block
is the only one that closes all of its braces. -/
structure IsBlock (head d : Text) : Prop where
  source : ∃ rest, d = head ++ '{' :: rest
  opening : Quote.after none head = none
  passive : ∀ g ∈ head.glyphs, g.Passive
  closes : d.getLast? = some '}'
  first : ∀ s u, d = s ++ u → head.length < s.length → (Even s.glyphs ↔ u = [])

section Count

variable {depth after : Nat} {gs hs : List Glyph}

/-- The depth counts the braces that are opened against those that are closed. -/
theorem count_of_depth? (h : Glyph.braces.depth? depth gs = some after) :
    depth + gs.countP (·.role = .openBrace) = after + gs.countP (·.role = .closeBrace) := by
  replace h := Brackets.nesting_of_depth? h
  induction h with
  | nil => rfl
  | opening hopen _ ih =>
      have hrole : Glyph.role _ = .openBrace := eq_of_beq hopen
      simp only [List.countP_cons, hrole, reduceCtorEq, decide_true, decide_false, if_true,
        Bool.false_eq_true, if_false]
      omega
  | closing _ hclose _ ih =>
      have hrole : Glyph.role _ = .closeBrace := eq_of_beq hclose
      simp only [List.countP_cons, hrole, reduceCtorEq, decide_true, decide_false, if_true,
        Bool.false_eq_true, if_false]
      omega
  | other hopen hclose _ ih =>
      have hopen : Glyph.role _ ≠ .openBrace := beq_eq_false_iff_ne.mp hopen
      have hclose : Glyph.role _ ≠ .closeBrace := beq_eq_false_iff_ne.mp hclose
      simp only [List.countP_cons, hopen, hclose, decide_false, Bool.false_eq_true, if_false]
      omega

theorem even_passive_append (h : ∀ g ∈ hs, g.Passive) : Even (hs ++ gs) ↔ Even gs := by
  have hopen : hs.countP (·.role = .openBrace) = 0 :=
    List.countP_eq_zero.mpr fun g hg => by simpa using (h g hg).1
  have hclose : hs.countP (·.role = .closeBrace) = 0 :=
    List.countP_eq_zero.mpr fun g hg => by simpa using (h g hg).2.1
  rw [Even, List.countP_append, List.countP_append, hopen, hclose, Nat.zero_add, Nat.zero_add, Even]

theorem even_of_depth? (h : Glyph.braces.depth? 0 gs = some 0) : Even gs := by
  have := count_of_depth? h
  rw [Even]
  omega

/-- A brace stays open behind glyphs that close none but their own. -/
theorem not_even_of_front {opening : Glyph} (hopening : opening.role = .openBrace)
    (h : Glyph.braces.depth? 0 gs = some after) (hfront : hs <+: gs) : ¬Even (opening :: hs) := by
  obtain ⟨rest, rfl⟩ := hfront
  rw [Brackets.depth?_append, Option.bind_eq_some_iff] at h
  obtain ⟨open_, hopen, -⟩ := h
  have hcount := count_of_depth? hopen
  intro heven
  rw [Even, List.countP_cons, List.countP_cons] at heven
  simp only [hopening, reduceCtorEq, decide_true, decide_false, if_true, Bool.false_eq_true,
    if_false] at heven
  omega

end Count

/-! ## How far a body reaches -/

/-- The glyphs that a body takes in, and those behind the brace that closes it: all up to that
brace, or all there are when none closes it. -/
inductive Reaches (depth : Nat) : List Glyph → List Glyph → Option (List Glyph) → Prop where
  | closed {inner rest : List Glyph} {closing : Glyph}
      (hinner : Glyph.braces.depth? depth inner = some 0)
      (hclosing : closing.role = .closeBrace) :
      Reaches depth (inner ++ closing :: rest) inner (some rest)
  | unclosed {gs : List Glyph} {after : Nat} (h : Glyph.braces.depth? depth gs = some after) :
      Reaches depth gs gs none

/-- A body reaches as far with one more glyph in front. -/
theorem Reaches.cons {depth next : Nat} {g : Glyph} {gs taken : List Glyph}
    {behind : Option (List Glyph)} (h : Reaches next gs taken behind)
    (hnext : ∀ hs, Glyph.braces.depth? depth (g :: hs) = Glyph.braces.depth? next hs) :
    Reaches depth (g :: gs) (g :: taken) behind := by
  cases h with
  | closed hinner hclosing => exact .closed ((hnext _).trans hinner) hclosing
  | unclosed h => exact .unclosed ((hnext _).trans h)

theorem Reaches.isPrefix {depth : Nat} {gs taken : List Glyph} {behind : Option (List Glyph)}
    (h : Reaches depth gs taken behind) : taken <+: gs := by
  cases h with
  | closed hinner hclosing => exact List.prefix_append _ _
  | unclosed h => exact List.prefix_refl _

namespace Body

/-- The pieces of a body hold what was seen of the current one and all glyphs that the body
takes in. -/
def Holds (b : Body) (depth : Nat) (seen : Text) (gs : List Glyph) : Prop :=
  ∃ taken, Reaches depth gs taken b.behind ∧
    b.pieces.flatMap Piece.text = seen.reverse ++ Glyph.chars taken

section Holds

variable {b : Body} {depth next : Nat} {seen : Text} {g : Glyph} {gs : List Glyph}

theorem Holds.later (h : b.Holds next (g.char :: seen) gs)
    (hnext : ∀ hs, Glyph.braces.depth? depth (g :: hs) = Glyph.braces.depth? next hs) :
    b.Holds depth seen (g :: gs) := by
  obtain ⟨taken, hreaches, htext⟩ := h
  refine ⟨g :: taken, hreaches.cons hnext, ?_⟩
  rw [htext]
  simp

theorem Holds.withPiece {p : Piece} (h : b.Holds next [] gs)
    (hp : p.text = (g.char :: seen).reverse)
    (hnext : ∀ hs, Glyph.braces.depth? depth (g :: hs) = Glyph.braces.depth? next hs) :
    (b.withPiece p).Holds depth seen (g :: gs) := by
  obtain ⟨taken, hreaches, htext⟩ := h
  refine ⟨g :: taken, hreaches.cons hnext, ?_⟩
  rw [pieces_withPiece, List.flatMap_cons, htext, hp]
  simp

end Holds

/-- All text that a body takes in belongs to one of its pieces. -/
theorem read_holds (depth : Nat) (declares : Bool) (seen : Text) (gs : List Glyph) :
    (read depth declares seen gs).Holds depth seen gs := by
  fun_induction read depth declares seen gs with
  | case1 depth declares seen => exact ⟨[], .unclosed rfl, by simp [Piece.text]⟩
  | case2 declares seen g gs hopen ih => exact ih.later fun _ => Glyph.braces_open hopen
  | case3 declares seen g gs depth hopen ih => exact ih.later fun _ => Glyph.braces_open hopen
  | case4 declares seen g gs hclose =>
      have hreaches : Reaches 0 ([] ++ g :: gs) [] (some gs) := .closed rfl hclose
      exact ⟨[], hreaches, by simp [Piece.text]⟩
  | case5 declares seen g gs hclose ih =>
      refine ih.withPiece ?_ fun _ => Glyph.braces_close hclose
      rw [Piece.block]
      split <;> rfl
  | case6 declares seen g gs depth hclose ih => exact ih.later fun _ => Glyph.braces_close hclose
  | case7 declares seen g gs hsemicolon ih =>
      exact ih.withPiece rfl fun _ =>
        Glyph.braces_other (by rw [hsemicolon]; decide) (by rw [hsemicolon]; decide)
  | case8 depth declares seen g gs hopen hopen' hclose hclose' hclose'' _ ih =>
      refine ih.later fun _ => Glyph.braces_other (fun hrole => ?_) (fun hrole => ?_)
      · cases depth with
        | zero => exact hopen hrole rfl
        | succ depth => exact hopen' depth hrole rfl
      · obtain _ | _ | depth := depth
        · exact hclose hrole rfl
        · exact hclose' hrole rfl
        · exact hclose'' depth hrole rfl

/-! ## Nested declarations -/

/-- The braces of a block that stands in a body balance for the first time at its end. -/
theorem Block.StandsIn.isBlock {b : Block} {body : Text} (h : b.StandsIn body) :
    IsBlock b.head b.text where
  source := ⟨_, rfl⟩
  opening := h.opening
  passive := h.passive
  closes := by
    rw [Block.text, ← List.cons_append, ← List.append_assoc]
    exact List.getLast?_concat
  first := by
    intro s u hsplit hlength
    constructor
    · intro heven
      -- The part begins with the head and the first brace.
      obtain ⟨inner, rfl, hinner⟩ : ∃ inner : Text, s = b.head ++ '{' :: inner ∧
          b.inner ++ ['}'] = inner ++ u := by
        rcases List.append_eq_append_iff.mp hsplit with ⟨cut, rfl, hcut⟩ | ⟨cut, hhead, -⟩
        · cases cut with
          | nil => simp at hlength
          | cons c cut =>
              obtain ⟨rfl, hrest⟩ := List.cons.inj hcut
              exact ⟨cut, rfl, hrest⟩
        · rw [hhead, List.length_append] at hlength
          omega
      rcases u.eq_nil_or_concat with hnil | ⟨v, c, rfl⟩
      · exact hnil
      · rw [List.concat_eq_append, ← List.append_assoc] at hinner
        obtain ⟨hfront, -⟩ := List.append_inj' hinner rfl
        have hinside : inner.glyphs <+: b.inner.glyphs :=
          ⟨_, by rw [hfront, Text.glyphs, Text.glyphs, Text.glyphsFrom_append]⟩
        have hglyphs : Text.glyphs (b.head ++ '{' :: inner) =
            b.head.glyphs ++ ⟨'{', false⟩ :: inner.glyphs := Text.glyphs_append h.opening _
        rw [hglyphs, even_passive_append h.passive] at heven
        exact absurd heven (not_even_of_front rfl h.inside hinside)
    · rintro rfl
      rw [List.append_nil] at hsplit
      rw [← hsplit]
      exact even_of_depth? h.wholePiece.complete.braces

end Body

/-! ## Where a body ends -/

section Balance

variable {t : Text} {front gs hs rest : List Glyph} {opening : Glyph} {after stop : Nat}

/-- Braces balance nowhere behind the last character of a text. -/
theorem BalancesAt.lt_size {start : Nat} (h : BalancesAt t start stop) : stop < t.size := by
  obtain ⟨front, span, mark, behind, hglyphs, rfl, -, rfl, -⟩ := h
  have hpos := mark.char.utf8Size_pos
  rw [← Text.chars_glyphs t, hglyphs]
  simp only [Glyph.chars_append, Glyph.chars_cons, Text.size_append, Text.size_cons]
  omega

/-- Behind an opening brace the braces balance no sooner than they are all closed. -/
theorem BalancesAt.size_le (h : BalancesAt t (Text.size (Glyph.chars front)) stop)
    (hglyphs : t.glyphs = front ++ opening :: (hs ++ rest)) (hopening : opening.role = .openBrace)
    (hopen : Glyph.braces.depth? 0 hs = some after) :
    Text.size (Glyph.chars front) + Text.size (Glyph.chars (opening :: hs)) ≤ stop := by
  obtain ⟨before, span, mark, behind, hsplit, hsize, hlt, rfl, heven⟩ := h
  obtain ⟨rfl, hbehind⟩ : before = front ∧ span ++ mark :: behind = opening :: (hs ++ rest) := by
    rw [hglyphs] at hsplit
    have hchars := congrArg Glyph.chars hsplit
    rw [Glyph.chars_append, Glyph.chars_append] at hchars
    have hsame := (Text.eq_of_size hchars hsize.symm).1
    have hlength : front.length = before.length := by
      simpa [Glyph.chars] using congrArg List.length hsame
    obtain ⟨hfront, hrest⟩ := List.append_inj hsplit hlength
    exact ⟨hfront.symm, hrest.symm⟩
  cases span with
  | nil => simp at hlt
  | cons g span =>
      obtain ⟨rfl, hinner⟩ := List.cons.inj hbehind
      rcases List.append_eq_append_iff.mp hinner with ⟨cut, rfl, hcut⟩ | ⟨cut, rfl, -⟩
      · cases cut with
        | nil => simp
        | cons c cut =>
            obtain ⟨rfl, -⟩ := List.cons.inj hcut
            have hfront : span ++ [mark] <+: span ++ mark :: cut := ⟨cut, by simp⟩
            exact absurd heven (not_even_of_front hopening hopen hfront)
      · simp only [Glyph.chars_cons, Glyph.chars_append, Text.size_cons, Text.size_append]
        omega

end Balance

namespace Body

section Stop

variable {front rest : Text} {b : Body} {taken : List Glyph}

theorem glyphs_at_brace (hfront : Quote.after none front = none) (rest : Text) :
    Text.glyphs (front ++ '{' :: rest) = front.glyphs ++ ⟨'{', false⟩ :: rest.glyphs :=
  Text.glyphs_append hfront _

theorem stop_eq (hreaches : Reaches 0 rest.glyphs taken b.behind) :
    b.stop (front ++ '{' :: rest) = front.size + 1 + Text.size (Glyph.chars taken) := by
  have hone : '{'.utf8Size = 1 := rfl
  have hchars := Text.chars_glyphs rest
  rw [stop, Text.size_append, Text.size_cons, hone]
  generalize rest.glyphs = gs at hchars hreaches
  generalize b.behind = behind at hreaches
  subst hchars
  cases hreaches with
  | @closed _ after closing hinner hclosing =>
      have hsize : Text.size (Glyph.chars (taken ++ closing :: after)) =
          Text.size (Glyph.chars taken) + (1 + Text.size (Glyph.chars after)) := by
        rw [eq_of_role_closeBrace hclosing, Glyph.chars_append, Text.size_append, Glyph.chars_cons,
          Text.size_cons]
        rfl
      rw [hsize]
      dsimp only
      omega
  | unclosed hopen => exact (Nat.add_assoc _ _ _).symm

/-- A body ends where the braces of the text balance for the first time, or with the text when
they never do. -/
theorem stop_cases (hfront : Quote.after none front = none)
    (hreaches : Reaches 0 rest.glyphs taken b.behind) :
    IsLeast {p | BalancesAt (front ++ '{' :: rest) front.size p} (b.stop (front ++ '{' :: rest)) ∨
      (∀ p, ¬BalancesAt (front ++ '{' :: rest) front.size p) ∧
        b.stop (front ++ '{' :: rest) = Text.size (front ++ '{' :: rest) := by
  have hglyphs := glyphs_at_brace hfront rest
  have hsize : Text.size (Glyph.chars front.glyphs) = front.size := by rw [Text.chars_glyphs]
  have hbrace : Text.size (Glyph.chars (⟨'{', false⟩ :: taken)) =
      1 + Text.size (Glyph.chars taken) :=
    rfl
  have hstop : b.stop (front ++ '{' :: rest) =
      front.size + Text.size (Glyph.chars (⟨'{', false⟩ :: taken)) := by
    rw [stop_eq hreaches, hbrace, Nat.add_assoc]
  rw [hstop]
  generalize hgs : rest.glyphs = gs at hglyphs hreaches
  generalize b.behind = behind at hreaches
  cases hreaches with
  | @closed _ after closing hinner hclosing =>
      refine .inl ⟨?_, fun p (hp : BalancesAt _ _ p) => ?_⟩
      · have hdepth : Glyph.braces.depth? 0 (⟨'{', false⟩ :: taken ++ [closing]) = some 0 := by
          rw [List.cons_append, Glyph.braces_open rfl, Brackets.depth?_append,
            Brackets.depth?_add hinner 1, Option.bind_some, Glyph.braces_close hclosing]
          rfl
        exact ⟨front.glyphs, _, closing, after, hglyphs, hsize, by omega, rfl,
          even_of_depth? hdepth⟩
      · rw [← hsize] at hp ⊢
        exact hp.size_le hglyphs rfl hinner
  | unclosed hopen =>
      have hall : Text.size (front ++ '{' :: rest) =
          front.size + Text.size (Glyph.chars (⟨'{', false⟩ :: taken)) := by
        rw [← hgs, Glyph.chars_cons, Text.chars_glyphs, Text.size_append]
      refine .inr ⟨fun p hp => ?_, hall.symm⟩
      have hlt := hp.lt_size
      rw [← hsize] at hp
      rw [← List.append_nil taken] at hglyphs
      have hle := hp.size_le hglyphs rfl hopen
      omega

end Stop

/-- The members and the nested declarations share all text of the pieces. -/
theorem size_pieces (b : Body) :
    b.members.size + (b.nested.map Text.size).sum = Text.size (b.pieces.flatMap Piece.text) := by
  obtain ⟨pieces, behind⟩ := b
  induction pieces with
  | nil => rfl
  | cons piece pieces ih =>
      change (withPiece piece ⟨pieces, behind⟩).members.size +
        ((withPiece piece ⟨pieces, behind⟩).nested.map Text.size).sum = _
      rw [members_withPiece, nested_withPiece, List.flatMap_cons, Text.size_append,
        Text.size_append, ← ih]
      cases piece with
      | member text =>
          simp only [Piece.memberText, Piece.nested?, Piece.text, Option.toList_none,
            List.nil_append]
          omega
      | nested text =>
          simp only [Piece.memberText, Piece.nested?, Piece.text, Option.toList_some,
            List.map_append, List.map_cons, List.map_nil, List.sum_append, List.sum_cons,
            List.sum_nil, Text.size_nil]
          omega

/-- A block is marked in its body as if it stood alone. -/
theorem Block.StandsIn.exists_glyphs {b : Block} {body : Text} (h : b.StandsIn body) :
    ∃ before behind, body.glyphs = before ++ (b.text.glyphs ++ behind) := by
  obtain ⟨behind, rfl⟩ := h.source
  obtain ⟨pieces, hpieces⟩ := exists_pieces_of_depth? h.depth fun mark hmark hpassive =>
    (h.boundary mark hmark).elim hpassive.2.2 hpassive.2.1
  refine ⟨b.before.glyphs, behind.glyphs, ?_⟩
  rw [Text.glyphs_append hpieces.unquoted, Text.glyphs_append h.wholePiece.unquoted]

/-- Behind a brace outside of all literals a body ends at the least offset at which the braces
of the text balance, or with the text if they never do. The text of the body up to there falls
into pieces. Each of them goes as a whole to the members or is a nested declaration, so the
sizes of these add up to that of the body. A nested declaration is a block by itself, with the
same marks as in the text. -/
theorem atBrace_extent {front rest : Text}
    (hbrace : Span.anyHolds (Text.spans (front ++ '{' :: rest)) front.size = false) :
    let t := front ++ '{' :: rest
    let body := atBrace t front.size
    (IsLeast {p | BalancesAt t front.size p} (body.stop t) ∨
      (∀ p, ¬BalancesAt t front.size p) ∧ body.stop t = t.size) ∧
    (∃ inner behind : Text, ∃ pieces : List Piece,
      t = front ++ '{' :: (inner ++ behind) ∧ front.size + 1 + inner.size = body.stop t ∧
      pieces.flatMap Piece.text = inner ∧ pieces.flatMap Piece.memberText = body.members ∧
      pieces.filterMap Piece.nested? = body.nested) ∧
    body.members.size + (body.nested.map Text.size).sum = body.stop t - (front.size + 1) ∧
    ∀ d ∈ body.nested, (∃ head, IsBlock head d) ∧
      ∃ before behind, t.glyphs = before ++ (d.glyphs ++ behind) := by
  have hfront := Text.after_of_not_holds rfl hbrace
  dsimp only
  rw [atBrace_of_not_holds hbrace]
  obtain ⟨taken, hreaches, htext⟩ := read_holds 0 false [] rest.glyphs
  rw [List.reverse_nil, List.nil_append] at htext
  have hstop : (read 0 false [] rest.glyphs).stop (front ++ '{' :: rest) = _ := stop_eq hreaches
  refine ⟨stop_cases hfront hreaches, ?_, ?_, fun d hd => ?_⟩
  · obtain ⟨behind, hbehind⟩ := hreaches.isPrefix
    have hrest : rest = Glyph.chars taken ++ Glyph.chars behind := by
      rw [← Glyph.chars_append, hbehind, Text.chars_glyphs]
    exact ⟨_, _, _, congrArg (front ++ '{' :: ·) hrest, hstop.symm, htext, rfl, rfl⟩
  · rw [size_pieces, htext, hstop]
    omega
  · obtain ⟨b, hb, rfl, -⟩ := exists_block_of_mem_nested hd
    obtain ⟨before, behind, hglyphs⟩ := hb.exists_glyphs
    refine ⟨⟨_, hb.isBlock⟩, front.glyphs ++ ⟨'{', false⟩ :: before, behind, ?_⟩
    rw [glyphs_at_brace hfront, hglyphs]
    simp

/-- A field with a closing brace in its literal, an enum and a method. -/
theorem atBrace_extent_enum :
    let t := "class A\x7bchar c = '\x7d';enum E{X}void f(){}\x7d;".toList
    let body := atBrace t 7
    IsLeast {p | BalancesAt t 7 p} 40 ∧ body.members = "char c = '\x7d';void f(){}".toList ∧
      body.nested = ["enum E{X}".toList] ∧ body.members.size + Text.size "enum E{X}".toList = 32 ∧
      ∃ head, IsBlock head "enum E{X}".toList := by
  have hbrace : Span.anyHolds (Text.spans
      ("class A".toList ++ '{' :: "char c = '\x7d';enum E{X}void f(){}\x7d;".toList))
      (Text.size "class A".toList) = false := by
    decide +kernel
  have hstop : Body.stop (atBrace "class A\x7bchar c = '\x7d';enum E{X}void f(){}\x7d;".toList 7)
      "class A\x7bchar c = '\x7d';enum E{X}void f(){}\x7d;".toList = 40 := by
    decide +kernel
  have hnested : (atBrace "class A\x7bchar c = '\x7d';enum E{X}void f(){}\x7d;".toList 7).nested =
      ["enum E{X}".toList] := by
    decide +kernel
  have hmem : "enum E{X}".toList ∈
      (atBrace "class A\x7bchar c = '\x7d';enum E{X}void f(){}\x7d;".toList 7).nested := by
    rw [hnested]
    exact List.mem_singleton_self _
  obtain ⟨hleast, -, hsizes, hblocks⟩ := atBrace_extent hbrace
  refine ⟨?_, by decide +kernel, hnested, hsizes, (hblocks _ hmem).1⟩
  rcases hleast with hleast | ⟨-, hsize⟩
  · exact hstop ▸ hleast
  · exact absurd (hstop.symm.trans hsize) (by decide)

end Body

end Declaration

end ClassDiagram
