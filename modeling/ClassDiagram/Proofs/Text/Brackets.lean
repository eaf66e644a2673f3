import ClassDiagram.Literal.Basic
import Mathlib.Logic.Basic

/-!
# Brackets

Brackets of one kind belong together when none is closed that was not opened before and
all are closed in the end. Scans count them in different texts and for different ends: angle
brackets around the arguments of a type, parentheses around those of an annotation or a
method, with those inside literals or without. What they share is here: the depth of
brackets behind a stretch, and where the bracket that is open is closed again.
-/

namespace ClassDiagram

/-- The brackets of one kind among the items of a list. -/
structure Brackets (α : Type) where
  opens : α → Bool
  closes : α → Bool

namespace Brackets

variable {α : Type} (b : Brackets α)

/-- The depth after one more item. A closing bracket too many counts for nothing. -/
def next (depth : Nat) (a : α) : Nat :=
  if b.opens a then depth + 1 else if b.closes a then depth - 1 else depth

/-- The depth after a list. -/
def depth (start : Nat) (as : List α) : Nat := as.foldl b.next start

/-- The depth after a list, unless a bracket in it closes what is not open. -/
def depth? (start : Nat) : List α → Option Nat
  | [] => some start
  | a :: as =>
    if b.opens a then depth? (start + 1) as
    else if b.closes a then (if start = 0 then none else depth? (start - 1) as)
    else depth? start as

/-- The brackets of a list belong together. -/
def Balanced (as : List α) : Prop := b.depth? 0 as = some 0

instance (as : List α) : Decidable (b.Balanced as) := inferInstanceAs (Decidable (_ = _))

/-- All items of some sort stand inside brackets, when `depth` of them are open in front. -/
def Shelters (p : α → Prop) (depth : Nat) : List α → Prop
  | [] => True
  | a :: as => (p a → 0 < depth) ∧ Shelters p (b.next depth a) as

variable {b} {p : α → Prop} {start stop : Nat} {a : α} {as bs : List α}

/-! ## Depth -/

@[simp] theorem depth_nil : b.depth start [] = start := rfl

@[simp] theorem depth_cons : b.depth start (a :: as) = b.depth (b.next start a) as := rfl

@[simp] theorem depth_append : b.depth start (as ++ bs) = b.depth (b.depth start as) bs :=
  List.foldl_append

theorem next_open (h : b.opens a = true) : b.next start a = start + 1 := if_pos h

theorem next_close (hopen : b.opens a = false) (hclose : b.closes a = true) :
    b.next start a = start - 1 := by
  rw [next, if_neg (Bool.eq_false_iff.mp hopen), if_pos hclose]

theorem next_other (hopen : b.opens a = false) (hclose : b.closes a = false) :
    b.next start a = start := by
  rw [next, if_neg (Bool.eq_false_iff.mp hopen), if_neg (Bool.eq_false_iff.mp hclose)]

theorem depth?_open (h : b.opens a = true) :
    b.depth? start (a :: as) = b.depth? (start + 1) as := by
  rw [depth?, if_pos h]

theorem depth?_close_zero (hopen : b.opens a = false) (hclose : b.closes a = true) :
    b.depth? 0 (a :: as) = none := by
  rw [depth?, if_neg (Bool.eq_false_iff.mp hopen), if_pos hclose, if_pos rfl]

theorem depth?_close (hopen : b.opens a = false) (hclose : b.closes a = true) :
    b.depth? (start + 1) (a :: as) = b.depth? start as := by
  rw [depth?, if_neg (Bool.eq_false_iff.mp hopen), if_pos hclose, if_neg (Nat.succ_ne_zero start),
    Nat.add_sub_cancel]

theorem depth?_other (hopen : b.opens a = false) (hclose : b.closes a = false) :
    b.depth? start (a :: as) = b.depth? start as := by
  rw [depth?, if_neg (Bool.eq_false_iff.mp hopen), if_neg (Bool.eq_false_iff.mp hclose)]

/-- The lists that close no brackets but their own and some of those that are open in front of
them. The first number is that of the brackets which are open behind the list, and the second
that of the brackets in front. -/
inductive Nesting (b : Brackets α) (stop : Nat) : Nat → List α → Prop where
  | nil : Nesting b stop stop []
  | opening {start : Nat} {a : α} {as : List α} (hopen : b.opens a = true)
      (h : Nesting b stop (start + 1) as) : Nesting b stop start (a :: as)
  | closing {start : Nat} {a : α} {as : List α} (hopen : b.opens a = false)
      (hclose : b.closes a = true) (h : Nesting b stop start as) :
      Nesting b stop (start + 1) (a :: as)
  | other {start : Nat} {a : α} {as : List α} (hopen : b.opens a = false)
      (hclose : b.closes a = false) (h : Nesting b stop start as) : Nesting b stop start (a :: as)

theorem nesting_of_depth? (h : b.depth? start as = some stop) : b.Nesting stop start as := by
  induction as generalizing start with
  | nil =>
      cases h
      exact .nil
  | cons a as ih =>
      cases hopen : b.opens a with
      | true => exact .opening hopen (ih (depth?_open hopen ▸ h))
      | false =>
          cases hclose : b.closes a with
          | true =>
              cases start with
              | zero =>
                  rw [depth?_close_zero hopen hclose] at h
                  cases h
              | succ start => exact .closing hopen hclose (ih (depth?_close hopen hclose ▸ h))
          | false => exact .other hopen hclose (ih (depth?_other hopen hclose ▸ h))

/-- Where no bracket closes too much, both counts agree. -/
theorem depth_of_depth? (h : b.depth? start as = some stop) : b.depth start as = stop := by
  replace h := nesting_of_depth? h
  induction h with
  | nil => rfl
  | opening hopen _ ih => rw [depth_cons, next_open hopen, ih]
  | closing hopen hclose _ ih => rw [depth_cons, next_close hopen hclose, Nat.add_sub_cancel, ih]
  | other hopen hclose _ ih => rw [depth_cons, next_other hopen hclose, ih]

/-- More open brackets in front stay open. -/
theorem depth?_add (h : b.depth? start as = some stop) (more : Nat) :
    b.depth? (start + more) as = some (stop + more) := by
  replace h := nesting_of_depth? h
  induction h with
  | nil => rfl
  | opening hopen _ ih => rw [depth?_open hopen, Nat.add_right_comm, ih]
  | closing hopen hclose _ ih => rw [Nat.add_right_comm, depth?_close hopen hclose, ih]
  | other hopen hclose _ ih => rw [depth?_other hopen hclose, ih]

theorem depth?_append : b.depth? start (as ++ bs) = (b.depth? start as).bind (b.depth? · bs) := by
  induction as generalizing start with
  | nil => rfl
  | cons a as ih =>
      rw [List.cons_append]
      cases hopen : b.opens a with
      | true => rw [depth?_open hopen, depth?_open hopen, ih]
      | false =>
          cases hclose : b.closes a with
          | true =>
              cases start with
              | zero => rw [depth?_close_zero hopen hclose, depth?_close_zero hopen hclose]; rfl
              | succ start => rw [depth?_close hopen hclose, depth?_close hopen hclose, ih]
          | false => rw [depth?_other hopen hclose, depth?_other hopen hclose, ih]

/-- Items that are no brackets leave the depth as it is. -/
theorem depth?_of_forall (h : ∀ a ∈ as, b.opens a = false ∧ b.closes a = false) :
    b.depth? start as = some start := by
  induction as with
  | nil => rfl
  | cons a as ih =>
      obtain ⟨⟨hopen, hclose⟩, has⟩ := List.forall_mem_cons.mp h
      rw [depth?_other hopen hclose, ih has]

/-! ## Where a bracket is closed -/

/-- A bracket closes too much for the first time where all others are closed. -/
theorem exists_of_depth?_eq_none (h : b.depth? start as = none) :
    ∃ inner a behind, as = inner ++ a :: behind ∧ b.opens a = false ∧ b.closes a = true ∧
      b.depth? start inner = some 0 := by
  induction as generalizing start with
  | nil => cases h
  | cons a as ih =>
      -- The bracket found behind this item is found in front of it as well.
      have hlater {next : Nat} (hnone : b.depth? next as = none)
          (hnext : ∀ inner, b.depth? start (a :: inner) = b.depth? next inner) :
          ∃ inner c behind, a :: as = inner ++ c :: behind ∧ b.opens c = false ∧
            b.closes c = true ∧ b.depth? start inner = some 0 := by
        obtain ⟨inner, c, behind, rfl, hopen, hclose, hinner⟩ := ih hnone
        exact ⟨a :: inner, c, behind, rfl, hopen, hclose, (hnext inner).trans hinner⟩
      cases hopen : b.opens a with
      | true =>
          exact hlater (depth?_open hopen ▸ h) fun _ => depth?_open hopen
      | false =>
          cases hclose : b.closes a with
          | true =>
              cases start with
              | zero => exact ⟨[], a, as, rfl, hopen, hclose, rfl⟩
              | succ start =>
                  exact hlater (depth?_close hopen hclose ▸ h) fun _ => depth?_close hopen hclose
          | false =>
              exact hlater (depth?_other hopen hclose ▸ h) fun _ => depth?_other hopen hclose

/-- Where one more bracket is closed than others are left open, it is closed first. -/
theorem exists_of_depth?_eq_zero (h : b.depth? (start + 1) as = some 0) :
    ∃ inner a behind, as = inner ++ a :: behind ∧ b.opens a = false ∧ b.closes a = true ∧
      b.depth? start inner = some 0 := by
  cases hdepth : b.depth? start as with
  | none => exact exists_of_depth?_eq_none hdepth
  | some stop =>
      rw [depth?_add hdepth 1] at h
      cases h

/-- A bracket that is open is closed before the depth can fall below it. -/
theorem exists_close (h : b.depth (start + 1) as ≤ start) :
    ∃ inner a behind, as = inner ++ a :: behind ∧ b.opens a = false ∧ b.closes a = true ∧
      b.Balanced inner := by
  cases hdepth : b.depth? 0 as with
  | none => exact exists_of_depth?_eq_none hdepth
  | some stop =>
      have hmore := depth_of_depth? (depth?_add hdepth (start + 1))
      rw [Nat.zero_add] at hmore
      omega

/-! ## Inside brackets -/

theorem shelters_append :
    b.Shelters p start (as ++ bs) ↔ b.Shelters p start as ∧ b.Shelters p (b.depth start as) bs := by
  induction as generalizing start with
  | nil => exact ⟨fun h => ⟨trivial, h⟩, And.right⟩
  | cons a as ih => rw [List.cons_append, Shelters, Shelters, depth_cons, ih, and_assoc]

theorem shelters_of_forall (h : ∀ a ∈ as, ¬p a) : b.Shelters p start as := by
  induction as generalizing start with
  | nil => trivial
  | cons a as ih =>
      obtain ⟨ha, has⟩ := List.forall_mem_cons.mp h
      exact ⟨fun hp => absurd hp ha, ih has⟩

/-- Inside a bracket that no item closes all items are sheltered. -/
theorem shelters_of_depth? (h : b.depth? start as = some stop) :
    b.Shelters p (start + 1) as := by
  replace h := nesting_of_depth? h
  induction h with
  | nil => trivial
  | opening hopen _ ih =>
      refine ⟨fun _ => Nat.succ_pos _, ?_⟩
      rwa [next_open hopen]
  | closing hopen hclose _ ih =>
      refine ⟨fun _ => Nat.succ_pos _, ?_⟩
      rwa [next_close hopen hclose, Nat.add_sub_cancel]
  | other hopen hclose _ ih =>
      refine ⟨fun _ => Nat.succ_pos _, ?_⟩
      rwa [next_other hopen hclose]

/-- What is sheltered stands behind an open bracket. -/
theorem depth_pos_of_shelters (h : b.Shelters p start (as ++ a :: bs)) (ha : p a) :
    0 < b.depth start as :=
  (shelters_append.mp h).2.1 ha

end Brackets

/-! ## The kinds of brackets -/

/-- Angle brackets, wherever they stand. -/
def Text.angles : Brackets Char := ⟨(· == '<'), (· == '>')⟩

/-- Parentheses, wherever they stand. -/
def Text.parens : Brackets Char := ⟨(· == '('), (· == ')')⟩

/-- Braces outside literals. -/
def Glyph.braces : Brackets Glyph := ⟨(·.role == .openBrace), (·.role == .closeBrace)⟩

/-- Parentheses outside literals. -/
def Glyph.parens : Brackets Glyph := ⟨(·.role == .openParen), (·.role == .closeParen)⟩

/-- Angle brackets, parentheses and square brackets outside literals, each of which closes any. -/
def Glyph.anyBrackets : Brackets Glyph where
  opens g := !g.quoted && "<([".toList.contains g.char
  closes g := !g.quoted && ">)]".toList.contains g.char

/-! ## Braces by their roles -/

section Braces

variable {depth : Nat} {g : Glyph} {gs : List Glyph}

theorem Glyph.braces_open (h : g.role = .openBrace) :
    braces.depth? depth (g :: gs) = braces.depth? (depth + 1) gs :=
  Brackets.depth?_open (beq_iff_eq.mpr h)

theorem Glyph.braces_close (h : g.role = .closeBrace) :
    braces.depth? (depth + 1) (g :: gs) = braces.depth? depth gs :=
  Brackets.depth?_close (by simp [braces, h]) (beq_iff_eq.mpr h)

theorem Glyph.braces_close_zero (h : g.role = .closeBrace) : braces.depth? 0 (g :: gs) = none :=
  Brackets.depth?_close_zero (by simp [braces, h]) (beq_iff_eq.mpr h)

theorem Glyph.braces_other (hopen : g.role ≠ .openBrace) (hclose : g.role ≠ .closeBrace) :
    braces.depth? depth (g :: gs) = braces.depth? depth gs :=
  Brackets.depth?_other (beq_eq_false_iff_ne.mpr hopen) (beq_eq_false_iff_ne.mpr hclose)

end Braces

end ClassDiagram
