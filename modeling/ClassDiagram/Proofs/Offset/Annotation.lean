import ClassDiagram.Proofs.Member.Lead
import ClassDiagram.Proofs.Text.Slice

/-!
# Cutting off annotations

An annotation is cut off at two offsets: the one at which its name ends, and the one behind the
parenthesis that closes its arguments. The first is that of a character that has been found
(`findChar?_eq`), the second is one byte behind that of a parenthesis (`closing?_cases`). So the
text behind the annotations always exists (`dropAnnotations?_eq`).
-/

namespace ClassDiagram

open Member

namespace Offset

/-! ## Offsets of characters -/

/-- The offset of the first character that satisfies `p`. -/
def findChar? (p : Char → Bool) : Text → Option Nat
  | [] => none
  | c :: t => if p c then some 0 else (findChar? p t).map (c.utf8Size + ·)

/-- The offset of the parenthesis that brings the depth back to zero. What is left of the text
begins at `offset`. -/
def closing? (depth : Int) (offset : Nat) : Text → Option Nat
  | [] => none
  | c :: t =>
    if c == '(' then closing? (depth + 1) (offset + c.utf8Size) t
    else if c == ')' then
      if depth - 1 = 0 then some offset else closing? (depth - 1) (offset + c.utf8Size) t
    else closing? depth (offset + c.utf8Size) t

section Find

variable {p : Char → Bool}

/-- A character is found behind all those that are passed over. -/
theorem findChar?_eq (p : Char → Bool) (t : Text) :
    findChar? p t =
      (t.dropWhile (!p ·)).head?.map fun _ => Text.size (t.takeWhile (!p ·)) := by
  induction t with
  | nil => rfl
  | cons c t ih =>
      rw [findChar?]
      cases hc : p c with
      | true => simp [hc]
      | false =>
          rw [List.dropWhile_cons_of_pos (by simp [hc]), List.takeWhile_cons_of_pos (by simp [hc]),
            if_neg Bool.false_ne_true, ih, Option.map_map]
          rfl

/-- The text from a character on that has been found, if one has. -/
theorem sliceFrom?_findChar? (p : Char → Bool) (t : Text) :
    t.sliceFrom? ((findChar? p t).getD t.size) = some (t.dropWhile (!p ·)) := by
  have ht := List.takeWhile_append_dropWhile (p := (!p ·)) (l := t)
  have hslice := Text.sliceFrom?_part (t.takeWhile (!p ·)) (t.dropWhile (!p ·)) rfl
  rw [ht] at hslice
  rw [findChar?_eq]
  cases hrest : t.dropWhile (!p ·) with
  | nil =>
      rw [hrest, List.append_nil] at ht
      rw [hrest, ht] at hslice
      exact hslice
  | cons c rest =>
      rw [hrest] at hslice
      exact hslice

/-- The text in front of a character that has been found. -/
theorem slice?_findChar? {offset : Nat} {t : Text} (h : findChar? p t = some offset) :
    t.slice? 0 offset = some (t.takeWhile (!p ·)) := by
  rw [findChar?_eq] at h
  obtain ⟨-, -, rfl⟩ := Option.map_eq_some_iff.mp h
  have hslice := Text.slice?_part [] (t.takeWhile (!p ·)) (t.dropWhile (!p ·)) rfl (Nat.zero_add _)
  rwa [List.takeWhile_append_dropWhile] at hslice

end Find

theorem closing?_cons (depth offset : Nat) (c : Char) (t : Text) :
    closing? (depth + 1) offset (c :: t) =
      if c == ')' && depth == 0 then some offset
      else closing? ((Text.parens.next depth c : Nat) + 1) (offset + c.utf8Size) t := by
  rw [closing?]
  by_cases hopen : c = '('
  · subst hopen
    rfl
  by_cases hclose : c = ')'
  · subst hclose
    cases depth with
    | zero => rfl
    | succ depth =>
        have hdepth : ((depth + 1 : Nat) : Int) + 1 - 1 = depth + 1 := by omega
        have hnext : Text.parens.next (depth + 1) ')' = depth := rfl
        rw [if_neg (by decide), if_pos (by decide), hdepth, if_neg (by omega), if_neg (by simp),
          hnext]
  · have hopens : Text.parens.opens c = false := beq_eq_false_iff_ne.mpr hopen
    have hcloses : Text.parens.closes c = false := beq_eq_false_iff_ne.mpr hclose
    rw [if_neg (by simpa using hopen), if_neg (by simpa using hclose),
      if_neg (by simp [hclose]), Brackets.next_other hopens hcloses]

/-- The parenthesis that ends a group is found, if there is one. -/
theorem closing?_cases (depth offset : Nat) (t : Text) :
    closing? (depth + 1) offset t = none ∧ splitGroup depth t = (t, []) ∨
      closing? (depth + 1) offset t = some (offset + Text.size (splitGroup depth t).1) ∧
        t = (splitGroup depth t).1 ++ ')' :: (splitGroup depth t).2 := by
  induction t generalizing depth offset with
  | nil => exact .inl ⟨rfl, rfl⟩
  | cons c t ih =>
      rw [closing?_cons]
      by_cases hend : (c == ')' && depth == 0) = true
      · obtain ⟨hc, hdepth⟩ := Bool.and_eq_true_iff.mp hend
        obtain rfl := eq_of_beq hc
        rw [if_pos hend, splitGroup, if_pos hend]
        exact .inr ⟨rfl, rfl⟩
      · have hgroup : splitGroup depth (c :: t) = (c :: (splitGroup (Text.parens.next depth c) t).1,
            (splitGroup (Text.parens.next depth c) t).2) := by
          rw [splitGroup, if_neg hend]
          rfl
        rw [if_neg hend, hgroup]
        rcases ih (Text.parens.next depth c) (offset + c.utf8Size) with
          ⟨hnone, hall⟩ | ⟨hsome, hall⟩
        · rw [hnone, hall]
          exact .inl ⟨rfl, rfl⟩
        · refine .inr ⟨?_, congrArg (c :: ·) hall⟩
          rw [hsome, Text.size_cons, Nat.add_assoc]

/-- The parenthesis that closes the first one of a text. -/
theorem closing?_group (group : Text) :
    closing? 0 0 ('(' :: group) = none ∧ splitGroup 0 group = (group, []) ∨
      closing? 0 0 ('(' :: group) = some (1 + Text.size (splitGroup 0 group).1) ∧
        group = (splitGroup 0 group).1 ++ ')' :: (splitGroup 0 group).2 :=
  closing?_cases 0 1 group

/-! ## Annotations -/

/-- The text behind an annotation whose `@` has been read. -/
def afterMark? (t : Text) : Option Text := do
  let tail ← t.sliceFrom? ((findChar? endsName t).getD t.size)
  match tail with
  | '(' :: _ => tail.sliceFrom? (((closing? 0 0 tail).map (· + 1)).getD tail.size)
  | _ => return tail

theorem head?_ne {c : Char} {t : Text} (h : ∀ rest, t = c :: rest → False) : t.head? ≠ some c := by
  intro hhead
  obtain ⟨rest, hrest⟩ := List.head?_eq_some_iff.mp hhead
  exact h rest hrest

theorem afterMark?_eq (t : Text) : afterMark? t = some (afterMark t) := by
  rw [afterMark?, sliceFrom?_findChar?]
  rw [Option.bind_eq_bind, Option.bind_some]
  split
  · rename_i group hgroup
    rw [afterMark_group hgroup, hgroup]
    rcases closing?_group group with ⟨hnone, hall⟩ | ⟨hsome, hall⟩
    · rw [hnone, hall]
      have hend := Text.sliceFrom?_part ('(' :: group) [] rfl
      rwa [List.append_nil] at hend
    · have hsplit : '(' :: group =
          ('(' :: (splitGroup 0 group).1 ++ [')']) ++ (splitGroup 0 group).2 := by
        rw [List.append_assoc, List.singleton_append, List.cons_append, ← hall]
      have hsize : Text.size ('(' :: (splitGroup 0 group).1 ++ [')']) =
          1 + Text.size (splitGroup 0 group).1 + 1 := by
        rw [Text.size_append, Text.size_cons]
        rfl
      have hslice := Text.sliceFrom?_part _ (splitGroup 0 group).2 hsize
      rw [← hsplit] at hslice
      rw [hsome, Option.map_some, Option.getD_some, hslice]
  · rename_i hnone
    rw [afterMark_name (head?_ne hnone)]
    rfl

/-- The text without the annotations and blanks in front of it. -/
def dropAnnotations? (t : Text) : Option Text :=
  match _h : Text.trimStart t with
  | '@' :: rest =>
    match _htail : afterMark? rest with
    | some tail => dropAnnotations? tail
    | none => none
  | trimmed => some trimmed
termination_by t.length
decreasing_by
  have hs := (List.dropWhile_sublist (l := t) Text.isBlank).length_le
  have ha := length_afterMark rest
  rw [afterMark?_eq, Option.some.injEq] at _htail
  rw [Text.trimStart] at _h
  rw [_h, List.length_cons] at hs
  rw [_htail] at ha
  omega

theorem dropAnnotations?_eq (t : Text) : dropAnnotations? t = some (dropAnnotations t) := by
  fun_induction dropAnnotations? t with
  | case1 t rest hmark tail htail ih =>
      rw [afterMark?_eq, Option.some.injEq] at htail
      rw [ih, ← htail, ← dropAnnotations_trimStart t, hmark, dropAnnotations_mark]
  | case2 t rest hmark htail =>
      rw [afterMark?_eq] at htail
      cases htail
  | case3 t hplain => rw [dropAnnotations_of_head? (head?_ne hplain)]

end Offset

end ClassDiagram
