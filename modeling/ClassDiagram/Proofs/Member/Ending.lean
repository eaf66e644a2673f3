import ClassDiagram.Proofs.Member.Lead
import ClassDiagram.Proofs.Member.Signature

/-!
# Where a member ends

A member ends with a semicolon outside of all brackets, or with the brace that closes a block,
unless the block is the value of a field. Which brackets are open is a matter of the text alone:
parentheses count between members only, and braces and semicolons count where no parentheses
hide them (`level`). A text ends a member as a whole (`Ends`), or it is the piece of one member
(`IsPiece`), or no front of it ends a member (`Unfinished`).

The block that a text ends with is told by its first brace outside of parentheses, and a text
has only one (`HasBody.head_unique`).
-/

namespace ClassDiagram.Member

/-! ## Open brackets -/

/-- The brackets that are open. -/
structure Level where
  braces : Nat := 0
  /-- The parentheses outside of braces. -/
  parens : Nat := 0
  deriving DecidableEq, Repr

namespace Level

/-- Parentheses that are open outside of braces hide braces and semicolons. -/
def hides (l : Level) : Prop := l.braces = 0 ∧ 0 < l.parens

instance (l : Level) : Decidable l.hides := inferInstanceAs (Decidable (_ ∧ _))

/-- The brackets open behind one more glyph. A closing bracket too many counts for nothing. -/
def next (l : Level) (g : Glyph) : Level :=
  match g.role with
  | .openParen => if l.braces = 0 then { l with parens := l.parens + 1 } else l
  | .closeParen => if l.braces = 0 then { l with parens := l.parens - 1 } else l
  | .openBrace => if l.hides then l else { l with braces := l.braces + 1 }
  | .closeBrace => if l.hides then l else { l with braces := l.braces - 1 }
  | .semicolon | .plain => l

/-- The brackets open behind glyphs. -/
def behind (l : Level) (gs : List Glyph) : Level := gs.foldl next l

theorem behind_append (l : Level) (gs hs : List Glyph) :
    l.behind (gs ++ hs) = (l.behind gs).behind hs := List.foldl_append

variable {gs : List Glyph}

/-- Outside of braces only parentheses are counted, as long as they hide what opens a brace. -/
theorem behind_sheltered {parens : Nat}
    (h : Glyph.parens.Shelters (·.role = .openBrace) parens gs) :
    behind ⟨0, parens⟩ gs = ⟨0, Glyph.parens.depth parens gs⟩ := by
  induction gs generalizing parens with
  | nil => rfl
  | cons g gs ih =>
      obtain ⟨hbrace, hgs⟩ := h
      have hnext : next ⟨0, parens⟩ g = ⟨0, Glyph.parens.next parens g⟩ := by
        cases hrole : g.role with
        | openBrace =>
            have hhides : hides ⟨0, parens⟩ := ⟨rfl, hbrace hrole⟩
            simp [next, Glyph.parens, Brackets.next, hrole, hhides]
        | _ => simp [next, Glyph.parens, Brackets.next, hrole]
      rw [behind, List.foldl_cons, hnext, Brackets.depth_cons]
      exact ih hgs

/-- Inside a brace only braces are counted. -/
theorem behind_inside {start stop : Nat} (h : Glyph.braces.depth? start gs = some stop)
    (parens : Nat) : behind ⟨start + 1, parens⟩ gs = ⟨stop + 1, parens⟩ := by
  replace h := Brackets.nesting_of_depth? h
  induction h with
  | nil => rfl
  | opening hopen _ ih =>
      rw [behind, List.foldl_cons, next, eq_of_beq hopen]
      exact ih
  | closing _ hclose _ ih =>
      rw [behind, List.foldl_cons, next, eq_of_beq hclose]
      exact ih
  | @other start g gs hopen hclose _ ih =>
      have hsame : next ⟨start + 1, parens⟩ g = ⟨start + 1, parens⟩ := by
        cases hrole : g.role with
        | openBrace => exact absurd hrole (beq_eq_false_iff_ne.mp hopen)
        | closeBrace => exact absurd hrole (beq_eq_false_iff_ne.mp hclose)
        | _ => simp [next, hrole]
      rw [behind, List.foldl_cons, hsame]
      exact ih

end Level

/-- The brackets open behind a text. -/
def level (t : Text) : Level := Level.behind {} t.glyphs

theorem level_concat (t : Text) (c : Char) :
    level (t ++ [c]) = (level t).next ⟨c, Quote.encloses (Quote.after none t) c⟩ := by
  rw [level, Text.glyphs, Text.glyphsFrom_append, Level.behind_append]
  rfl

theorem Braceless.level {head : Text} (h : Braceless head) (houtside : Outside head) :
    level head = {} := by
  rw [Member.level, Level.behind_sheltered h.sheltered, houtside.2]

/-! ## Blocks -/

/-- Behind a text the first brace that is not hidden by parentheses opens, and the brace that
closes it stands behind the body. -/
structure HasBody (head body : Text) : Prop where
  outside : Outside head
  braceless : Braceless head
  balanced : Glyph.braces.depth? 0 body.glyphs = some 0
  closed : Quote.after none body = none

namespace HasBody

variable {head body : Text}

/-- In front of the brace that closes a block this brace alone is open. -/
theorem level (h : HasBody head body) : level (head ++ '{' :: body) = ⟨1, 0⟩ := by
  have hglyphs : Text.glyphs ('{' :: body) = ⟨'{', false⟩ :: body.glyphs := rfl
  rw [Member.level, Text.glyphs_append h.outside.1, Level.behind_append, hglyphs]
  change Level.behind ((Member.level head).next ⟨'{', false⟩) body.glyphs = _
  rw [h.braceless.level h.outside]
  exact Level.behind_inside h.balanced 0

theorem after (h : HasBody head body) : Quote.after none (head ++ '{' :: body) = none := by
  rw [Quote.after_append, h.outside.1, Quote.after_cons]
  exact h.closed

end HasBody

/-- The first brace of a text that is not hidden stands at one place. -/
theorem head_unique {head head' rest rest' : Text} (hhead : Outside head) (hfirst : Braceless head)
    (hhead' : Outside head') (hfirst' : Braceless head')
    (h : head ++ '{' :: rest = head' ++ '{' :: rest') : head = head' := by
  -- A front that goes on behind the brace of the other has a brace that nothing hides.
  have hexposed {front cut : Text} (hfront : Outside front) :
      ¬Braceless (front ++ '{' :: cut) := fun hbraceless => by
    have hsheltered := hbraceless.sheltered
    rw [Text.glyphs_append hfront.1] at hsheltered
    have hpos := Brackets.depth_pos_of_shelters hsheltered rfl
    rw [hfront.2] at hpos
    exact Nat.lt_irrefl 0 hpos
  rcases List.append_eq_append_iff.mp h with ⟨cut, rfl, hcut⟩ | ⟨cut, rfl, hcut⟩
  · cases cut with
    | nil => exact (List.append_nil head).symm
    | cons c cut =>
        cases (List.cons.inj hcut).1
        exact absurd hfirst' (hexposed hhead)
  · cases cut with
    | nil => exact List.append_nil head'
    | cons c cut =>
        cases (List.cons.inj hcut).1
        exact absurd hfirst (hexposed hhead')

/-! ## What a block is -/

/-- Behind the annotations an assignment stands in front of all parentheses. -/
def Assigns (lead : Text) : Prop :=
  " = ".toList <:+: (dropAnnotations lead).takeWhile (· != '(')

/-- Behind the annotations there is nothing, or the word for an initializer of the type. -/
def LeadsInitializer (lead : Text) : Prop :=
  Text.trim (dropAnnotations lead) = [] ∨ Text.trim (dropAnnotations lead) = "static".toList

theorem leadsInitializer_iff {lead : Text} :
    LeadsInitializer lead ↔ opensInitializer lead = true := by
  simp [LeadsInitializer, opensInitializer]

/-- A block that is read as an initializer or a method is no value of a field. -/
theorem not_assigns_of_opened {lead : Text} (h : Enclosure.opened lead ≠ .fieldValue) :
    ¬Assigns lead :=
  fun hassigns => h (opened_of_assignsFirst (assignsFirst_iff.mpr hassigns))

theorem leadsInitializer_of_opened {lead : Text} (h : Enclosure.opened lead = .initializer) :
    LeadsInitializer lead := by
  rw [leadsInitializer_iff]
  rcases opened_cases lead with ⟨-, hopens⟩ | ⟨hvalue, -⟩ | hmethod
  · exact hopens
  · cases h.symm.trans hvalue
  · cases h.symm.trans hmethod

theorem not_leadsInitializer_of_opened {lead : Text} (h : Enclosure.opened lead = .method) :
    ¬LeadsInitializer lead := by
  rw [leadsInitializer_iff]
  intro hopens
  rw [Enclosure.opened, if_pos hopens] at h
  cases h

/-! ## Endings -/

/-- A member ends behind the text. -/
inductive Ends : Text → Prop where
  | semicolon {front : Text} (closed : Quote.after none front = none) (hlevel : level front = {}) :
      Ends (front ++ [';'])
  | block {head body : Text} (hbody : HasBody head body) (hvalue : ¬Assigns head) :
      Ends (head ++ '{' :: (body ++ ['}']))

/-- No front of the text ends a member. -/
def Unfinished (t : Text) : Prop := ∀ front, front <+: t → ¬Ends front

/-- The text ends a member, and no shorter front of it does. -/
structure IsPiece (t : Text) : Prop where
  ends : Ends t
  first : ∀ front, front <+: t → Ends front → front = t

/-- The text is a block of an initializer, with what leads it. -/
def IsInitializer (t : Text) : Prop :=
  ∃ head body, t = head ++ '{' :: (body ++ ['}']) ∧ HasBody head body ∧ LeadsInitializer head

theorem Ends.ne_nil {t : Text} (h : Ends t) : t ≠ [] := by
  cases h <;> simp

theorem Ends.getLast? {t : Text} (h : Ends t) :
    t.getLast? = some ';' ∨ t.getLast? = some '}' := by
  cases h with
  | semicolon => exact .inl List.getLast?_concat
  | block =>
      rw [← List.cons_append, ← List.append_assoc]
      exact .inr List.getLast?_concat

theorem unfinished_nil : Unfinished [] := fun _ hfront h =>
  h.ne_nil (List.prefix_nil.mp hfront)

theorem Unfinished.concat {t : Text} {c : Char} (h : Unfinished t) (hc : ¬Ends (t ++ [c])) :
    Unfinished (t ++ [c]) := fun front hfront => by
  rcases List.prefix_concat_iff.mp hfront with rfl | hshorter
  · exact hc
  · exact h front hshorter

theorem Unfinished.piece {t : Text} {c : Char} (h : Unfinished t) (hc : Ends (t ++ [c])) :
    IsPiece (t ++ [c]) := by
  refine ⟨hc, fun front hfront hends => ?_⟩
  rcases List.prefix_concat_iff.mp hfront with rfl | hshorter
  · rfl
  · exact absurd hends (h front hshorter)

/-- A text begins with one piece only. -/
theorem IsPiece.unique {piece piece' u u' : Text} (h : IsPiece piece) (h' : IsPiece piece')
    (heq : piece ++ u = piece' ++ u') : piece = piece' ∧ u = u' := by
  have hpiece : piece = piece' := by
    rcases List.prefix_or_prefix_of_prefix (heq ▸ List.prefix_append piece u)
      (List.prefix_append piece' u') with hfront | hfront
    · exact h'.first piece hfront h.ends
    · exact (h.first piece' hfront h'.ends).symm
  subst hpiece
  exact ⟨rfl, List.append_cancel_left heq⟩

end ClassDiagram.Member
