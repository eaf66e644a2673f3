import ClassDiagram.Member.Modifier
import ClassDiagram.Proofs.Tree.Basic

/-!
# Modifiers in any order

The keyword decoding takes modifiers one after the other, up to the first word that is none. Each
flag of the modifiers says whether its keyword stands among them, and the access is that of the
last access keyword. So the order of the keywords does not matter, unless more than one access is
stated (`decode_keywords`). The keywords of a member state one access (`decode_perm`).
-/

namespace ClassDiagram.Member.Modifiers

open ClassDiagram.Tree (modifierWords)

/-! ## One keyword -/

/-- The keywords that the keyword decoding takes as modifiers. -/
def keywords : List Text :=
  ["private", "protected", "public", "static", "final", "abstract"].map String.toList ++
    ignoredKeywords

section Word

variable {word : Text}

theorem ne_of_not_mem (h : word ∉ keywords) (keyword : Text) (hkeyword : keyword ∈ keywords) :
    word ≠ keyword := by
  rintro rfl
  exact h hkeyword

theorem ofKeyword?_of_not_mem (h : word ∉ keywords) : Access.ofKeyword? word = none := by
  have hne := ne_of_not_mem h
  rw [Access.ofKeyword?, if_neg (hne _ (by decide)), if_neg (hne _ (by decide)),
    if_neg (hne _ (by decide))]

theorem add?_of_not_mem (h : word ∉ keywords) (m : Modifiers) : m.add? word = none := by
  have hne := ne_of_not_mem h
  have hignored : ignoredKeywords.contains word = false := by
    rw [← Bool.not_eq_true, List.contains_iff_mem]
    exact fun hmem => h (List.mem_append_right _ hmem)
  rw [add?, ofKeyword?_of_not_mem h]
  dsimp only
  rw [if_neg (hne _ (by decide)), if_neg (hne _ (by decide)), if_neg (hne _ (by decide)), hignored]
  rfl

theorem head_not_mem (h : word ∉ keywords) (words : List Text) :
    ∀ w ∈ (word :: words).head?, w ∉ keywords := by
  intro w hw
  cases hw
  exact h

end Word

/-- The modifiers behind one more word, which may be no keyword. -/
def add (m : Modifiers) (word : Text) : Modifiers := (m.add? word).getD m

section Keywords

variable {access : Access} {isStatic isFinal isAbstract : Bool} {m m' : Modifiers} {w : Text}
  {ks js rest : List Text}

theorem ofKeyword?_keyword (access : Access) : Access.ofKeyword? access.keyword = some access := by
  cases access with
  | privateAccess => rfl
  | protectedAccess => rfl
  | publicAccess => rfl

theorem keyword_mem_keywords (access : Access) : access.keyword ∈ keywords := by
  cases access with
  | privateAccess => decide
  | protectedAccess => decide
  | publicAccess => decide

theorem eq_keyword_of_ofKeyword? (h : Access.ofKeyword? w = some access) : w = access.keyword := by
  rw [Access.ofKeyword?] at h
  split at h
  · cases h
    assumption
  split at h
  · cases h
    assumption
  split at h
  · cases h
    assumption
  · cases h

/-- Every keyword is taken, and it changes no modifier but its own. -/
theorem add?_of_mem (h : w ∈ keywords) (m : Modifiers) :
    m.add? w = some {
      access := (Access.ofKeyword? w).getD m.access
      isStatic := decide (w = "static".toList) || m.isStatic
      isFinal := decide (w = "final".toList) || m.isFinal
      isAbstract := decide (w = "abstract".toList) || m.isAbstract } := by
  simp only [keywords, ignoredKeywords, List.map_cons, List.map_nil, List.cons_append,
    List.nil_append, List.mem_cons, List.not_mem_nil, or_false] at h
  obtain rfl | rfl | rfl | rfl | rfl | rfl | rfl | rfl | rfl | rfl | rfl | rfl | rfl | rfl := h <;>
    rfl

theorem add_of_mem (h : w ∈ keywords) (m : Modifiers) :
    m.add w = {
      access := (Access.ofKeyword? w).getD m.access
      isStatic := decide (w = "static".toList) || m.isStatic
      isFinal := decide (w = "final".toList) || m.isFinal
      isAbstract := decide (w = "abstract".toList) || m.isAbstract } := by
  rw [add, add?_of_mem h, Option.getD_some]

/-! ## All keywords -/

/-- The words in front of a member are taken up to the first one that is no keyword. -/
theorem takeKeywords_front (hks : ks ⊆ keywords) (hrest : ∀ w ∈ rest.head?, w ∉ keywords)
    (m : Modifiers) : m.takeKeywords (ks ++ rest) = (ks.foldl add m, rest) := by
  induction ks generalizing m with
  | nil =>
      cases rest with
      | nil => rfl
      | cons word rest =>
          rw [List.nil_append, takeKeywords, add?_of_not_mem (hrest word rfl)]
          rfl
  | cons k ks ih =>
      obtain ⟨hk, hks⟩ := List.cons_subset.mp hks
      rw [List.cons_append, takeKeywords, add?_of_mem hk, List.foldl_cons, add_of_mem hk]
      exact ih hks _

/-- The access that keywords state: that of the last access keyword among them, and private access
if there is none. -/
inductive StatesLast : List Text → Access → Prop where
  | stated (before : List Text) (access : Access) (behind : List Text)
      (h : ∀ later : Access, later.keyword ∉ behind) :
      StatesLast (before ++ access.keyword :: behind) access
  | unstated {ks : List Text} (h : ∀ access : Access, access.keyword ∉ ks) :
      StatesLast ks .privateAccess

/-- No two different accesses are stated. -/
def StatesOne (ks : List Text) : Prop :=
  ∀ access other : Access, access.keyword ∈ ks → other.keyword ∈ ks → access = other

/-- What modifiers say of the keywords in front of a member. -/
structure Tells (ks : List Text) (m : Modifiers) : Prop where
  isStatic : m.isStatic = true ↔ "static".toList ∈ ks
  isFinal : m.isFinal = true ↔ "final".toList ∈ ks
  isAbstract : m.isAbstract = true ↔ "abstract".toList ∈ ks
  access : StatesLast ks m.access

/-- One more keyword is the last one. -/
theorem StatesLast.concat (h : StatesLast ks access) (w : Text) :
    StatesLast (ks ++ [w]) ((Access.ofKeyword? w).getD access) := by
  cases hw : Access.ofKeyword? w with
  | some other =>
      rw [eq_keyword_of_ofKeyword? hw]
      exact .stated ks other [] fun _ => List.not_mem_nil
  | none =>
      have hne (other : Access) : other.keyword ≠ w := by
        rintro rfl
        rw [ofKeyword?_keyword] at hw
        cases hw
      have hconcat {words : List Text} (hwords : ∀ other : Access, other.keyword ∉ words)
          (other : Access) : other.keyword ∉ words ++ [w] := by
        rw [List.mem_append, List.mem_singleton]
        exact not_or.mpr ⟨hwords other, hne other⟩
      cases h with
      | stated before access behind hbehind =>
          rw [List.append_assoc, List.cons_append]
          exact .stated before access (behind ++ [w]) (hconcat hbehind)
      | unstated hks => exact .unstated (hconcat hks)

theorem Tells.concat (h : Tells ks m) (hw : w ∈ keywords) : Tells (ks ++ [w]) (m.add w) := by
  have hflag {flag : Bool} {keyword : Text} (hflag : flag = true ↔ keyword ∈ ks) :
      (decide (w = keyword) || flag) = true ↔ keyword ∈ ks ++ [w] := by
    rw [Bool.or_eq_true, decide_eq_true_iff, hflag, List.mem_append, List.mem_singleton, or_comm,
      eq_comm]
  rw [add_of_mem hw]
  exact ⟨hflag h.isStatic, hflag h.isFinal, hflag h.isAbstract, h.access.concat w⟩

theorem Tells.append (h : Tells js m) (hks : ks ⊆ keywords) :
    Tells (js ++ ks) (ks.foldl add m) := by
  induction ks generalizing js m with
  | nil => rwa [List.append_nil]
  | cons k ks ih =>
      obtain ⟨hk, hks⟩ := List.cons_subset.mp hks
      have hrest := ih (h.concat hk) hks
      rwa [List.append_assoc, List.singleton_append] at hrest

/-- The modifiers behind all keywords tell what these are. -/
theorem tells_foldl_add (hks : ks ⊆ keywords) : Tells ks (ks.foldl add {}) := by
  have hnone : Tells [] {} :=
    ⟨by decide, by decide, by decide, .unstated fun _ => List.not_mem_nil⟩
  exact hnone.append hks

/-! ## Orders -/

/-- If no two different accesses are stated, it does not matter which one is stated last. -/
theorem StatesLast.eq_of_perm {other : Access} (hone : StatesOne ks) (hperm : js.Perm ks)
    (h : StatesLast ks access) (h' : StatesLast js other) : other = access := by
  cases h with
  | stated before access behind hbehind =>
      have hmem : access.keyword ∈ before ++ access.keyword :: behind :=
        List.mem_append_right _ List.mem_cons_self
      cases h' with
      | stated =>
          exact hone _ _ (hperm.subset (List.mem_append_right _ List.mem_cons_self)) hmem
      | unstated hjs => exact absurd (hperm.symm.subset hmem) (hjs access)
  | unstated hks =>
      cases h' with
      | stated =>
          exact absurd (hperm.subset (List.mem_append_right _ List.mem_cons_self)) (hks other)
      | unstated => rfl

/-- The same keywords in another order are told by the same modifiers. -/
theorem Tells.eq_of_perm (hone : StatesOne ks) (hperm : js.Perm ks) (h : Tells ks m)
    (h' : Tells js m') : m' = m := by
  have hflag {flag flag' : Bool} {keyword : Text} (hflag : flag = true ↔ keyword ∈ ks)
      (hflag' : flag' = true ↔ keyword ∈ js) : flag' = flag :=
    Bool.eq_iff_iff.mpr (hflag'.trans (hperm.mem_iff.trans hflag.symm))
  have haccess := h.access.eq_of_perm hone hperm h'.access
  have hstatic := hflag h.isStatic h'.isStatic
  have hfinal := hflag h.isFinal h'.isFinal
  have habstract := hflag h.isAbstract h'.isAbstract
  cases m
  cases m'
  cases haccess
  cases hstatic
  cases hfinal
  cases habstract
  rfl

/-- Keywords of which no two state different accesses are decoded by what they tell, in whatever
order they stand. -/
theorem decode_of_tells (h : Tells ks m) (hone : StatesOne ks) (hperm : js.Perm ks)
    (hjs : js ⊆ keywords) (hrest : ∀ w ∈ rest.head?, w ∉ keywords) :
    decode .keyword (js ++ rest) = (m, rest) := by
  rw [decode, takeKeywords_front hjs hrest, h.eq_of_perm hone hperm (tells_foldl_add hjs)]

/-- The keywords in front of a member are taken as its modifiers and nothing else is. The flags
tell which keywords stand there, and the access is the last one that is stated. Unless different
accesses are stated, the modifiers are the same in every order of the keywords. -/
theorem decode_keywords (hks : ks ⊆ keywords) (hrest : ∀ w ∈ rest.head?, w ∉ keywords) :
    ∃ m, decode .keyword (ks ++ rest) = (m, rest) ∧ Tells ks m ∧
      (StatesOne ks → ∀ js, js.Perm ks → decode .keyword (js ++ rest) = (m, rest)) := by
  have htells := tells_foldl_add hks
  refine ⟨ks.foldl add {}, takeKeywords_front hks hrest {}, htells, ?_⟩
  intro hone js hperm
  exact decode_of_tells htells hone hperm (List.Subset.trans hperm.subset hks) hrest

/-- Repeated keywords and one that leaves no trace, between others and in front of a type. -/
theorem decode_keywords_repeated :
    ["final", "transient", "public", "static", "public", "transient"].map String.toList ⊆
        keywords ∧
      (∀ w ∈ (["int", "x"].map String.toList).head?, w ∉ keywords) ∧
      ∃ m, decode .keyword (["final", "transient", "public", "static", "public", "transient",
            "int", "x"].map String.toList) = (m, ["int", "x"].map String.toList) ∧
        m = ⟨.publicAccess, true, true, false⟩ ∧
        decode .keyword (["public", "public", "transient", "transient", "static", "final",
            "int", "x"].map String.toList) = (m, ["int", "x"].map String.toList) := by
  have hks : ["final", "transient", "public", "static", "public", "transient"].map String.toList ⊆
      keywords := by decide
  have hrest : ∀ w ∈ (["int", "x"].map String.toList).head?, w ∉ keywords := by decide
  have hone : StatesOne (["final", "transient", "public", "static", "public", "transient"].map
      String.toList) := by
    intro access other
    cases access <;> cases other <;> decide
  obtain ⟨m, hm, -, horders⟩ := decode_keywords hks hrest
  refine ⟨hks, hrest, m, hm, ?_, horders hone (["public", "public", "transient", "transient",
    "static", "final"].map String.toList) (by decide)⟩
  exact (Prod.ext_iff.mp hm).1.symm

/-! ## The keywords of a member -/

/-- The keywords of a member are its access and some of the three flags. -/
theorem of_mem_modifierWords (h : w ∈ modifierWords access isStatic isFinal isAbstract) :
    w = access.keyword ∨ w = "static".toList ∨ w = "final".toList ∨ w = "abstract".toList := by
  have hflag {flag : Bool} {keyword : Text} (h : w ∈ if flag then [keyword] else []) :
      w = keyword := by
    cases flag with
    | true => exact List.mem_singleton.mp h
    | false => cases h
  rw [modifierWords, List.mem_cons, List.mem_append, List.mem_append] at h
  rcases h with h | (h | h) | h
  · exact .inl h
  · exact .inr (.inl (hflag h))
  · exact .inr (.inr (.inl (hflag h)))
  · exact .inr (.inr (.inr (hflag h)))

theorem isWord_of_mem (h : w ∈ modifierWords access isStatic isFinal isAbstract) :
    Text.IsWord w := by
  obtain rfl | rfl | rfl | rfl := of_mem_modifierWords h
  · cases access with
    | privateAccess => decide
    | protectedAccess => decide
    | publicAccess => decide
  · decide
  · decide
  · decide

theorem modifierWords_subset_keywords :
    modifierWords access isStatic isFinal isAbstract ⊆ keywords := by
  intro w hw
  obtain rfl | rfl | rfl | rfl := of_mem_modifierWords hw
  · exact keyword_mem_keywords access
  · decide
  · decide
  · decide

/-- The keywords of a member are its modifiers in whatever order they stand. -/
theorem decode_perm (h : ks.Perm (modifierWords access isStatic isFinal isAbstract)) {word : Text}
    (hword : word ∉ keywords) (ws : List Text) :
    decode .keyword (ks ++ word :: ws) = (⟨access, isStatic, isFinal, isAbstract⟩, word :: ws) := by
  have hone : StatesOne (modifierWords access isStatic isFinal isAbstract) := by
    have hthis (other : Access)
        (hother : other.keyword ∈ modifierWords access isStatic isFinal isAbstract) :
        other = access := by
      rcases of_mem_modifierWords hother with heq | heq | heq | heq
      · exact Option.some.inj
          ((ofKeyword?_keyword other).symm.trans (heq ▸ ofKeyword?_keyword access))
      · cases other <;> cases heq
      · cases other <;> cases heq
      · cases other <;> cases heq
    intro first second hfirst hsecond
    exact (hthis first hfirst).trans (hthis second hsecond).symm
  have hall : (modifierWords access isStatic isFinal isAbstract).foldl add {} =
      ⟨access, isStatic, isFinal, isAbstract⟩ := by
    cases access <;> cases isStatic <;> cases isFinal <;> cases isAbstract <;> rfl
  have hsubset : modifierWords access isStatic isFinal isAbstract ⊆ keywords :=
    modifierWords_subset_keywords
  have htells := tells_foldl_add hsubset
  rw [hall] at htells
  exact decode_of_tells htells hone h (List.Subset.trans h.subset hsubset) (head_not_mem hword ws)

end Keywords

end ClassDiagram.Member.Modifiers
