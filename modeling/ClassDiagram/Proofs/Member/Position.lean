import ClassDiagram.Proofs.Member.Operation
import Mathlib.Data.List.Basic

/-!
# Modifiers by position

The positional decoding counts words, and the keyword decoding reads them. They agree on members
that state their modifiers in one order, and of the flags only as many as the count can tell
apart: `static`, `static final`, or `abstract` (`decode_stated`). A constructor has one word or
two, so the positional decoding takes no modifier there, but its access is read off the words
themselves.
-/

namespace ClassDiagram.Member

open ClassDiagram.Tree (modifierWords)

/-! ## Stated modifiers -/

/-- The flags that a member can state by position. -/
inductive Flags where
  | none
  | static
  | staticFinal
  | abstract
  deriving DecidableEq

namespace Flags

def words : Flags → List Text
  | none => []
  | static => ["static".toList]
  | staticFinal => ["static".toList, "final".toList]
  | abstract => ["abstract".toList]

/-- The modifiers with an access and these flags. -/
def modifiers (access : Access) : Flags → Modifiers
  | none => { access }
  | static => { access, isStatic := true }
  | staticFinal => { access, isStatic := true, isFinal := true }
  | abstract => { access, isAbstract := true }

end Flags

section Stated

variable {type : Text} (access : Option Access) (flags : Flags)

theorem stated_subset :
    accessWords access ++ flags.words ⊆ modifierWords (access.getD default) true true true := by
  cases access with
  | none => cases flags <;> decide
  | some access => cases access <;> cases flags <;> decide

/-- Both decodings read stated modifiers in front of a type and a name. -/
theorem decode_stated (htype : type ∉ Modifiers.keywords) (name : Text) (decoding : Decoding) :
    Modifiers.decode decoding (accessWords access ++ flags.words ++ [type, name]) =
      (flags.modifiers (access.getD default), [type, name]) := by
  cases decoding with
  | keyword =>
      have hsubset := List.Subset.trans (stated_subset access flags)
        Modifiers.modifierWords_subset_keywords
      rw [Modifiers.decode, Modifiers.takeKeywords_front hsubset (Modifiers.head_not_mem htype _)]
      cases access with
      | none => cases flags <;> rfl
      | some access => cases access <;> cases flags <;> rfl
  | positional =>
      cases access with
      | none => cases flags <;> rfl
      | some access => cases access <;> cases flags <;> rfl

theorem accessWords_subset :
    accessWords access ⊆ modifierWords (access.getD default) false false false := by
  cases access with
  | none => decide
  | some access => cases access <;> decide

theorem decode_accessWords {owner : Text} (howner : owner ∉ Modifiers.keywords) :
    Modifiers.decode .keyword (accessWords access ++ [owner]) =
        ({ access := access.getD default }, [owner]) ∧
      Modifiers.decode .positional (accessWords access ++ [owner]) =
        ({}, accessWords access ++ [owner]) := by
  constructor
  · have hsubset := List.Subset.trans (accessWords_subset access)
      Modifiers.modifierWords_subset_keywords
    rw [Modifiers.decode, Modifiers.takeKeywords_front hsubset (Modifiers.head_not_mem howner _)]
    cases access with
    | none => rfl
    | some access => cases access <;> rfl
  · cases access <;> rfl

end Stated

/-! ## Canonical members -/

/-- The marks that names lack in a canonical member. -/
def canonicalMarks : Text := "'\"()\x7b\x7d=@".toList

/-- A type or a name in a canonical member. -/
structure IsCanonicalName (t : Text) : Prop where
  token : Text.IsTokenWithout canonicalMarks t
  not_keyword : t ∉ Modifiers.keywords

instance (t : Text) : Decidable (IsCanonicalName t) :=
  decidable_of_iff (Text.IsTokenWithout canonicalMarks t ∧ t ∉ Modifiers.keywords)
    ⟨fun h => ⟨h.1, h.2⟩, fun h => ⟨h.token, h.not_keyword⟩⟩

/-- The canonical records of a type: a field, a method, an abstract method, or a constructor, with
a stated access or without. What a field assigns and what follows the opening parenthesis of a
method may be anything. -/
inductive IsCanonical (owner : Text) : Record → Prop where
  | field (access : Option Access) (flags : Flags) (hflags : flags ≠ .abstract) (type name : Text)
      (htype : IsCanonicalName type) (hname : IsCanonicalName name) (value : Option Text)
      (statements : List Text) :
      IsCanonical owner ⟨.variable, [' '].intercalate (accessWords access ++ flags.words ++
        [type, name]) ++ assignment value ++ [';'], statements⟩
  | method (access : Option Access) (flags : Flags) (type name : Text)
      (htype : IsCanonicalName type) (hname : IsCanonicalName name) (rest : Text)
      (statements : List Text) :
      IsCanonical owner ⟨.method, [' '].intercalate (accessWords access ++ flags.words ++
        [type, name]) ++ '(' :: rest, statements⟩
  | constructor (access : Option Access) (howner : IsCanonicalName owner) (rest : Text)
      (statements : List Text) :
      IsCanonical owner ⟨.method, [' '].intercalate (accessWords access ++ [owner]) ++
        '(' :: rest, statements⟩

section Agreement

variable {owner : Text} {r : Record} {ks names : List Text}
  {access : Access} {isStatic isFinal isAbstract : Bool}

/-- Keywords and canonical names lack all marks that matter. -/
theorem tokens_canonical (hks : ks ⊆ modifierWords access isStatic isFinal isAbstract)
    (hnames : ∀ w ∈ names, IsCanonicalName w) :
    ∀ w ∈ ks ++ names, Text.IsTokenWithout canonicalMarks w :=
  tokens_keywords hks (Text.forall_mem_of_all rfl) fun w hw => (hnames w hw).token

/-- A canonical record is split into its words and its parameters. -/
theorem splitSignature?_canonical {ws : List Text} (hne : ws ≠ [])
    (hws : ∀ w ∈ ws, Text.IsTokenWithout canonicalMarks w) (rest : Text) :
    ∃ list, splitSignature? ([' '].intercalate ws ++ '(' :: rest) =
      some ([' '].intercalate ws, list) := by
  have hlead := ne_of_mem_lead fun w hw => (hws w hw).mono (by decide)
  exact ⟨_, splitSignature?_paren (startsMember_tokens hne hws (by decide)) hlead rest⟩

theorem fields_positional (h : IsCanonical owner r) (hkind : r.kind = .variable) :
    fields .positional r.value = fields .keyword r.value := by
  cases h with
  | field access flags _ type name htype hname value =>
      have hws := tokens_canonical (stated_subset access flags)
        (List.forall_mem_cons.mpr ⟨htype, List.forall_mem_singleton.mpr hname⟩)
      have hread (decoding : Decoding) := fields_of_decode
        (startsMember_tokens (by simp) hws (by decide))
        (fun w hw => (hws w hw).mono (by decide))
        (decode_stated access flags htype.not_keyword name decoding) value
      exact (hread .positional).trans (hread .keyword).symm
  | method => cases hkind
  | constructor => cases hkind

theorem method?_positional (h : IsCanonical owner r) (hkind : r.kind = .method) :
    method? .positional owner r.value = method? .keyword owner r.value := by
  cases h with
  | field => cases hkind
  | method access flags type name htype hname rest =>
      have hws := tokens_canonical (stated_subset access flags)
        (List.forall_mem_cons.mpr ⟨htype, List.forall_mem_singleton.mpr hname⟩)
      obtain ⟨list, hsplit⟩ := splitSignature?_canonical (by simp) hws rest
      have hread (decoding : Decoding) := method?_of_head (fun w hw => (hws w hw).mono (by decide))
        hsplit (decode_stated access flags htype.not_keyword name decoding)
        (methodHead?_pair owner htype.not_keyword _ name _)
      exact (hread .positional).trans (hread .keyword).symm
  | constructor access howner rest =>
      have hws := tokens_canonical (accessWords_subset access)
        (List.forall_mem_singleton.mpr howner)
      obtain ⟨list, hsplit⟩ := splitSignature?_canonical (by simp) hws rest
      obtain ⟨hkeyword, hposition⟩ := decode_accessWords access howner.not_keyword
      have hread {decoding : Decoding} {m : Modifiers} {behind : List Text}
          (hdecode : Modifiers.decode decoding (accessWords access ++ [owner]) = (m, behind)) :=
        method?_of_head (fun w hw => (hws w hw).mono (by decide)) hsplit hdecode
          (methodHead?_accessWords access m)
      exact (hread hposition).trans (hread hkeyword).symm

end Agreement

/-- On canonical records the positional decoding finds the fields and methods that the keyword
decoding finds. -/
theorem decodings_agree {owner : Text} {rs : List Record} (h : ∀ r ∈ rs, IsCanonical owner r) :
    allFields .positional rs = allFields .keyword rs ∧
      allMethods .positional owner rs = allMethods .keyword owner rs := by
  constructor
  · refine List.flatMap_congr fun r hr => ?_
    split
    · rename_i hkind
      exact fields_positional (h r hr) hkind
    · rfl
  · refine List.filterMap_congr fun r hr => ?_
    split
    · rename_i hkind
      exact method?_positional (h r hr) hkind
    · rfl

/-- Canonical records of the type `Box`: two fields, two methods and two constructors. -/
def boxRecords : List Record :=
  [⟨.variable, "public static final int[] x = f(\"; = @\");".toList, []⟩,
    ⟨.variable, "int y;".toList, []⟩,
    ⟨.method, "static List<Box> all(int n)\x7breturn g(n);\x7d".toList, ["g(n)".toList]⟩,
    ⟨.method, "protected abstract int size();".toList, []⟩,
    ⟨.method, "Box()\x7b\x7d".toList, []⟩,
    ⟨.method, "private Box(int n)\x7by = n;\x7d".toList, []⟩]

theorem decodings_agree_box :
    (∀ r ∈ boxRecords, IsCanonical "Box".toList r) ∧
      allFields .positional boxRecords = allFields .keyword boxRecords ∧
      allMethods .positional "Box".toList boxRecords =
        allMethods .keyword "Box".toList boxRecords := by
  have hcanonical : ∀ r ∈ boxRecords, IsCanonical "Box".toList r := by
    simp only [boxRecords, List.forall_mem_cons]
    refine ⟨?_, ?_, ?_, ?_, ?_, ?_, List.forall_mem_nil _⟩
    · exact .field (some .publicAccess) .staticFinal (by decide) "int[]".toList "x".toList
        (by decide) (by decide) (some "f(\"; = @\")".toList) []
    · exact .field none .none (by decide) "int".toList "y".toList (by decide) (by decide) none []
    · exact .method none .static "List<Box>".toList "all".toList (by decide) (by decide)
        "int n)\x7breturn g(n);\x7d".toList ["g(n)".toList]
    · exact .method (some .protectedAccess) .abstract "int".toList "size".toList (by decide)
        (by decide) ");".toList []
    · exact .constructor none (by decide) ")\x7b\x7d".toList []
    · exact .constructor (some .privateAccess) (by decide) "int n)\x7by = n;\x7d".toList []
  exact ⟨hcanonical, decodings_agree hcanonical⟩

/-- By position a final field that is not static cannot be told from a static one. -/
example : fields .positional "final int x;".toList = fields .keyword "static int x;".toList := by
  decide +kernel

end ClassDiagram.Member
