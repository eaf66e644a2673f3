import ClassDiagram.Proofs.Declaration.Found
import ClassDiagram.Proofs.Declaration.Local

/-!
# The header as the first run

A text falls at its semicolons and braces into stretches, and a stretch in front of an opening
brace is a run. The search for a header goes from run to run and asks in each whether some
mention is there, and it passes over the runs of other marks. So what it finds is the first run
of the text with a mention (`exists_isFirst`). Of a name of word characters the two mentions are
plain conditions on the run alone: the name stands in it as a word, behind the keyword of a type
or anywhere. That makes the header of a type the first run that declares it, and the first run
that mentions it where none declares it (`locate?_first`).
-/

namespace ClassDiagram

namespace Declaration

/-- The name is a word of the text. -/
def Mentions (t name : Text) : Prop :=
  ∃ front behind, t = front ++ (name ++ behind) ∧
    front.getLast?.any Text.isWordChar = false ∧ behind.head?.any Text.isWordChar = false

/-! ## Runs -/

namespace Header

/-- A run of a text: it reaches from the start of the text, or from a mark, to an opening
brace, and no mark stands in it. -/
structure IsRunOf (h : Header) (t : Text) : Prop where
  source : h.source = t
  run : ∀ c ∈ h.run, endsRun c = false
  boundary : h.before.getLast?.all endsRun = true

/-- The first run of a text with some property. -/
structure IsFirst (p : Text → Prop) (t : Text) (h : Header) : Prop where
  isRun : h.IsRunOf t
  holds : p h.run
  first : ∀ other : Header, other.IsRunOf t → p other.run → h.before.length ≤ other.before.length

section Runs

variable {header : Header} {t run rest : Text} {mark : Char}

/-- A text without marks has no runs. -/
theorem not_isRunOf (ht : ∀ c ∈ t, endsRun c = false) : ¬header.IsRunOf t := by
  rintro ⟨rfl, -, -⟩
  have hbrace := ht '{' (by simp [source])
  cases hbrace

/-- A run behind the first mark is a run of the whole text. -/
theorem IsRunOf.behind (h : header.IsRunOf rest) (hmark : endsRun mark = true) (run : Text) :
    IsRunOf { header with before := run ++ mark :: header.before } (run ++ mark :: rest) := by
  obtain ⟨rfl, hinner, hboundary⟩ := h
  refine ⟨by simp [Header.source], hinner, ?_⟩
  cases hlast : header.before.getLast? with
  | none => simpa [List.getLast?_append, List.getLast?_cons, hlast] using hmark
  | some c => simpa [List.getLast?_append, List.getLast?_cons, hlast] using hboundary

/-- The runs of a text are the stretch in front of its first mark, if that is an opening brace,
and the runs behind the mark. -/
theorem IsRunOf.cases (h : header.IsRunOf (run ++ mark :: rest))
    (hrun : ∀ c ∈ run, endsRun c = false) (hmark : endsRun mark = true) :
    (mark = '{' ∧ header = ⟨[], run, rest⟩) ∨
      ∃ other : Header, other.IsRunOf rest ∧
        header = { other with before := run ++ mark :: other.before } := by
  obtain ⟨before, inner, behind⟩ := header
  obtain ⟨hsource, hinner, hboundary⟩ := h
  simp only [Header.source] at hsource hinner hboundary
  rcases run_or_split before with hplain | ⟨first, c, more, rfl, hfirst, hc⟩
  · -- Only an empty text in front of a run ends in no mark.
    obtain rfl : before = [] := by
      rcases before.eq_nil_or_concat with hnil | ⟨u, c, rfl⟩
      · exact hnil
      · rw [List.concat_eq_append] at hplain hboundary
        have hc : endsRun c = true := by simpa using hboundary
        rw [hplain c (by simp)] at hc
        cases hc
    obtain ⟨rfl, rfl, rfl⟩ := run_unique hinner hrun rfl hmark hsource
    exact .inl ⟨rfl, rfl⟩
  · rw [List.append_assoc, List.append_assoc, List.cons_append] at hsource
    obtain ⟨rfl, rfl, rfl⟩ := run_unique hfirst hrun hc hmark hsource
    refine .inr ⟨⟨more, inner, behind⟩, ⟨by simp [Header.source], hinner, ?_⟩, rfl⟩
    cases hlast : more.getLast? with
    | none => rfl
    | some d => simpa [List.getLast?_append, List.getLast?_cons, hlast] using hboundary

end Runs

/-- The search finds the first run of a text with a mention, or there is none. -/
theorem exists_isFirst {mention : Mention} {p : Text → Prop} (hclean : Mention.Clean mention)
    (hreads : Mention.Reads mention)
    (hp : ∀ run behind : Text, (∀ c ∈ run, endsRun c = false) →
      (lastMention? mention none (run ++ '{' :: behind) ≠ none ↔ p run)) (t : Text) :
    (∃ h, firstRun? mention t = some h ∧ h.IsFirst p t) ∨
      firstRun? mention t = none ∧ ∀ h : Header, h.IsRunOf t → ¬p h.run := by
  induction hlength : t.length using Nat.strongRecOn generalizing t with
  | ind n ih =>
      rcases run_or_split t with hplain | ⟨run, mark, rest, rfl, hrun, hmark⟩
      · have hnone : lastMention? mention none t = none := by
          rw [Option.eq_none_iff_forall_ne_some]
          rintro ⟨run, behind⟩ hfound
          have hbrace : '{' ∈ t := by
            rw [reads_lastMention? hreads _ _ _ _ hfound]
            simp
          cases hplain '{' hbrace
        exact .inr ⟨firstRun?_of_run hplain hnone, fun h hh => absurd hh (not_isRunOf hplain)⟩
      · cases hlast : lastMention? mention none (run ++ mark :: rest) with
        | some found =>
            obtain ⟨inner, behind⟩ := found
            obtain ⟨rfl, rfl, rfl⟩ := lastMention?_run hclean hreads hrun hmark hlast
            refine .inl ⟨_, firstRun?_of_some hlast, ⟨by simp [source], hrun, rfl⟩, ?_, ?_⟩
            · exact (hp inner behind hrun).mp (by rw [hlast]; exact Option.some_ne_none _)
            · exact fun other _ _ => Nat.zero_le _
        | none =>
            -- The first run has no mention, so a run with the property stands behind its mark.
            have hlater {h : Header} (hh : h.IsRunOf (run ++ mark :: rest)) (hprop : p h.run) :
                ∃ other : Header, other.IsRunOf rest ∧
                  h = { other with before := run ++ mark :: other.before } := by
              rcases hh.cases hrun hmark with ⟨rfl, rfl⟩ | hother
              · exact absurd hlast ((hp _ _ hrun).mpr hprop)
              · exact hother
            have hlt : rest.length < n := by
              rw [← hlength, List.length_append, List.length_cons]
              omega
            rcases ih rest.length hlt rest rfl with ⟨found, hfound, hfirst⟩ | ⟨hnone, hothers⟩
            · refine .inl ⟨_, ?_, hfirst.isRun.behind hmark run, hfirst.holds, fun h hh hprop => ?_⟩
              · rw [firstRun?_of_none hrun hmark hlast, hfound, Option.map_some]
              · obtain ⟨other, hother, rfl⟩ := hlater hh hprop
                have hle := hfirst.first other hother hprop
                simp only [List.length_append, List.length_cons]
                omega
            · refine .inr ⟨?_, fun h hh hprop => ?_⟩
              · rw [firstRun?_of_none hrun hmark hlast, hnone, Option.map_none]
              · obtain ⟨other, hother, rfl⟩ := hlater hh hprop
                exact hothers other hother hprop

end Header

/-! ## Mentions in a run -/

section Mention

variable {name run behind : Text}

/-- The last mention of a run is a mention in it, in front of its brace. -/
theorem exists_mention_of_last {mention : Mention} (hrun : ∀ c ∈ run, endsRun c = false)
    (hclean : Mention.Clean mention) (hreads : Mention.Reads mention)
    (h : lastMention? mention none (run ++ '{' :: behind) ≠ none) :
    ∃ front tail rest, run = front ++ tail ∧
      mention front.getLast? rest = some (tail, behind) := by
  obtain ⟨⟨found, after⟩, hfound⟩ := Option.ne_none_iff_exists'.mp h
  obtain ⟨-, rfl, rfl⟩ := lastMention?_run hclean hreads hrun rfl hfound
  obtain ⟨front, tail, rest, hsplit, hmention⟩ := exists_of_lastMention? hfound
  rw [Option.or_none] at hmention
  exact ⟨front, tail, rest, hsplit, hmention⟩

theorem upToBrace?_of_run (hrun : ∀ c ∈ run, endsRun c = false) :
    upToBrace? (run ++ '{' :: behind) ≠ none := by
  rw [upToBrace?_run hrun rfl, if_pos rfl]
  exact Option.some_ne_none _

theorem head?_run_brace (h : run.head?.any Text.isWordChar = false) :
    (run ++ '{' :: behind).head?.any Text.isWordChar = false := by
  cases run with
  | nil => rfl
  | cons c run => exact h

variable (hname : Text.IsWord name) (hrun : ∀ c ∈ run, endsRun c = false)

include hname hrun

/-- A run has a mention by the keyword exactly if it declares the name. -/
theorem lastMention?_keyword_iff :
    lastMention? (keywordMention name) none (run ++ '{' :: behind) ≠ none ↔ Declares run name := by
  have hplain : ∀ c ∈ name, endsRun c = false := fun c hc => endsRun_of_isWordChar (hname.2 c hc)
  have hlast : name.getLast?.any Text.isWordChar = true := by
    obtain ⟨c, hc, hword⟩ := hname.endsWord
    rw [hc, Option.any_some, hword]
  constructor
  · intro h
    obtain ⟨front, tail, rest, rfl, hmention⟩ :=
      exists_mention_of_last hrun (clean_keywordMention hplain) (reads_keywordMention name) h
    obtain ⟨hfront, keyword, blanks, tail, rfl, hkeyword, hne, hblanks, htail⟩ :=
      exists_of_keywordMention hlast hmention
    exact ⟨front, keyword, blanks, tail, rfl, hkeyword, hne, hblanks, hfront, htail⟩
  · rintro ⟨front, keyword, blanks, tail, rfl, hkeyword, hne, hblanks, hfront, htail⟩
    obtain ⟨hfrontRun, hrest⟩ := List.forall_mem_append.mp hrun
    obtain ⟨-, hrest⟩ := List.forall_mem_append.mp hrest
    obtain ⟨-, hrest⟩ := List.forall_mem_append.mp hrest
    obtain ⟨-, htailRun⟩ := List.forall_mem_append.mp hrest
    have hmention : keywordMention name (front.getLast?.or none)
        (keyword ++ (blanks ++ (name ++ (tail ++ '{' :: behind)))) ≠ none :=
      keywordMention_ne_none_of_blanks hkeyword (by rwa [Option.or_none]) hne hblanks hlast
        (head?_run_brace htail) (upToBrace?_of_run htailRun)
    simpa using lastMention?_ne_none hfrontRun hmention

/-- A run has a mention of the name exactly if the name is one of its words. -/
theorem lastMention?_name_iff :
    lastMention? (nameMention name) none (run ++ '{' :: behind) ≠ none ↔ Mentions run name := by
  have hplain : ∀ c ∈ name, endsRun c = false := fun c hc => endsRun_of_isWordChar (hname.2 c hc)
  have hlast : name.getLast?.any Text.isWordChar = true := by
    obtain ⟨c, hc, hword⟩ := hname.endsWord
    rw [hc, Option.any_some, hword]
  have hhead (rest : Text) : (name ++ rest).head?.any Text.isWordChar = true := by
    obtain ⟨c, hc, hword⟩ := hname.startsWord.append rest
    rw [hc, Option.any_some, hword]
  constructor
  · intro h
    obtain ⟨front, tail, rest, rfl, hmention⟩ :=
      exists_mention_of_last hrun (clean_nameMention hplain) (reads_nameMention name) h
    rw [nameMention] at hmention
    split at hmention
    · rename_i hboundary
      obtain ⟨tail, rfl, htail⟩ := exists_of_nameEnding hlast hmention
      rw [reads_nameEnding name _ _ _ _ hmention, List.append_assoc, Text.isBoundary, hhead]
        at hboundary
      exact ⟨front, tail, rfl, by simpa using hboundary, htail⟩
    · cases hmention
  · rintro ⟨front, tail, rfl, hfront, htail⟩
    obtain ⟨hfrontRun, hrest⟩ := List.forall_mem_append.mp hrun
    obtain ⟨-, htailRun⟩ := List.forall_mem_append.mp hrest
    have hmention : nameMention name (front.getLast?.or none) (name ++ (tail ++ '{' :: behind)) ≠
        none := by
      rw [nameMention, if_pos (by rw [Option.or_none, Text.isBoundary, hfront, hhead]; rfl)]
      exact nameEnding_ne_none hlast (head?_run_brace htail) (upToBrace?_of_run htailRun) _
    simpa using lastMention?_ne_none hfrontRun hmention

end Mention

/-! ## The header of a type -/

/-- The blanks around the text of a header belong to its run. -/
theorem Header.exists_run (header : Header) :
    ∃ leading trailing, header.run = leading ++ (header.text ++ trailing) ∧
      (∀ c ∈ leading ++ trailing, Text.isBlank c = true) ∧
      header.lead = header.before ++ leading := by
  obtain ⟨trailing, hrun, hblanks⟩ := Text.exists_trim header.run
  exact ⟨_, trailing, hrun, hblanks, rfl⟩

/-- A run that declares a name mentions it. -/
theorem Declares.mentions {t name : Text} (h : Declares t name) : Mentions t name := by
  obtain ⟨front, keyword, blanks, behind, rfl, -, hne, hblanks, -, hbehind⟩ := h
  refine ⟨front ++ (keyword ++ blanks), behind, by simp, ?_, hbehind⟩
  rw [List.getLast?_append, List.getLast?_append, List.getLast?_eq_some_getLast hne, Option.some_or,
    Option.some_or, Option.any_some]
  exact Text.isWordChar_of_isBlank (hblanks _ (List.getLast_mem hne))

end Declaration

open Declaration

/-- A file lacks the header of its type exactly if none is located in its dense text. -/
theorem SourceFile.read_eq_headerNotFound_iff {settings : Settings} {id : Identifier}
    {file : SourceFile} :
    file.read settings id = .error (.headerNotFound file.name) ↔
      Header.locate? (Source.dense file.text.toList) file.name.toList = none := by
  rw [read]
  cases Header.locate? (Source.dense file.text.toList) file.name.toList with
  | none => simp
  | some header =>
      simp only [reduceCtorEq, iff_false]
      intro h
      split at h
      · cases h
      · split at h
        · rename_i fault hfault
          cases h
          obtain ⟨cause, hcause⟩ := classSyntax_of_children hfault
          cases hcause
        · cases h

namespace Declaration

/-- Let a name consist of word characters. If some run of a text declares it, its header is the
first run that does. If none does, but some run mentions the name as a word, it is the first run
that does. If none mentions it, there is no header, and a file of this type and this dense text
is refused for that. The text of the header is the run without the blanks around it. It starts
where it stands in the text, and from there up to the brace there are only blanks behind it. -/
theorem Header.locate?_first {name : Text} (hname : Text.IsWord name) (t : Text) :
    ((∃ run : Header, run.IsRunOf t ∧ Declares run.run name) →
      ∃ header, locate? t name = some header ∧ header.IsFirst (Declares · name) t) ∧
    ((∀ run : Header, run.IsRunOf t → ¬Declares run.run name) →
      (∃ run : Header, run.IsRunOf t ∧ Mentions run.run name) →
        ∃ header, locate? t name = some header ∧ header.IsFirst (Mentions · name) t) ∧
    ((∀ run : Header, run.IsRunOf t → ¬Mentions run.run name) →
      locate? t name = none ∧
        ∀ settings id (file : SourceFile), Source.dense file.text.toList = t →
          file.name.toList = name →
          file.read settings id = .error (.headerNotFound file.name)) ∧
    ∀ header, locate? t name = some header →
      header.text = Text.trim header.run ∧
      ∃ leading trailing, (∀ c ∈ leading ++ trailing, Text.isBlank c = true) ∧
        t = header.before ++ (leading ++ (header.text ++ (trailing ++ '{' :: header.behind))) ∧
        header.run = leading ++ (header.text ++ trailing) ∧
        header.start = Text.size (header.before ++ leading) ∧
        header.brace = header.start + Text.size (header.text ++ trailing) := by
  have hplain : ∀ c ∈ name, endsRun c = false := fun c hc => endsRun_of_isWordChar (hname.2 c hc)
  have hdeclared := exists_isFirst (clean_keywordMention hplain) (reads_keywordMention name)
    (fun run behind hrun => lastMention?_keyword_iff hname hrun) t
  have hmentioned := exists_isFirst (clean_nameMention hplain) (reads_nameMention name)
    (fun run behind hrun => lastMention?_name_iff hname hrun) t
  refine ⟨?_, ?_, ?_, ?_⟩
  · rintro ⟨run, hrun, hdeclares⟩
    rcases hdeclared with ⟨header, hfound, hfirst⟩ | ⟨-, hnone⟩
    · exact ⟨header, by rw [locate?, hfound, Option.some_or], hfirst⟩
    · exact absurd hdeclares (hnone run hrun)
  · rintro hnone ⟨run, hrun, hmentions⟩
    have hmissing : firstRun? (keywordMention name) t = none := by
      rcases hdeclared with ⟨header, -, hfirst⟩ | ⟨hmissing, -⟩
      · exact absurd hfirst.holds (hnone header hfirst.isRun)
      · exact hmissing
    rcases hmentioned with ⟨header, hfound, hfirst⟩ | ⟨-, hothers⟩
    · exact ⟨header, by rw [locate?, hmissing, Option.none_or, hfound], hfirst⟩
    · exact absurd hmentions (hothers run hrun)
  · intro hnone
    have hlocate : locate? t name = none := by
      rw [locate?, Option.or_eq_none_iff]
      constructor
      · rcases hdeclared with ⟨header, -, hfirst⟩ | ⟨hmissing, -⟩
        · exact absurd hfirst.holds.mentions (hnone header hfirst.isRun)
        · exact hmissing
      · rcases hmentioned with ⟨header, -, hfirst⟩ | ⟨hmissing, -⟩
        · exact absurd hfirst.holds (hnone header hfirst.isRun)
        · exact hmissing
    refine ⟨hlocate, ?_⟩
    rintro settings id file rfl rfl
    exact SourceFile.read_eq_headerNotFound_iff.mpr hlocate
  · intro header hfound
    obtain ⟨leading, trailing, hrun, hblanks, hlead⟩ := header.exists_run
    have hsource := source_locate? hfound
    refine ⟨rfl, leading, trailing, hblanks, ?_, hrun, by rw [start, hlead], ?_⟩
    · rw [← hsource, source, hrun]
      simp
    · rw [brace, hrun, start, hlead, ← List.append_assoc, Text.size_append]

/-- A method that returns the type stands in front of its declaration, and a wide blank in front
of the header. -/
theorem Header.locate?_first_sibling :
    let t := "class Kit{Main make(){}}\u3000public class Main {}".toList
    Text.IsWord "Main".toList ∧
      ∃ header, locate? t "Main".toList = some header ∧
        header.IsFirst (Declares · "Main".toList) t ∧ header.text = "public class Main".toList ∧
        header.start = 27 ∧ header.brace = 45 := by
  have hname : Text.IsWord "Main".toList := by decide
  obtain ⟨hdeclared, -, -, -⟩ :=
    locate?_first hname "class Kit{Main make(){}}\u3000public class Main {}".toList
  have hrun : IsRunOf ⟨"class Kit{Main make(){}}".toList, "\u3000public class Main ".toList, ['}']⟩
      "class Kit{Main make(){}}\u3000public class Main {}".toList :=
    ⟨by decide +kernel, Text.forall_mem_of_all rfl, rfl⟩
  have hdeclares : Declares "\u3000public class Main ".toList "Main".toList :=
    ⟨"\u3000public ".toList, "class".toList, [' '], [' '], rfl, by decide, List.cons_ne_nil _ _,
      Text.forall_mem_of_all rfl, rfl, rfl⟩
  obtain ⟨header, hfound, hfirst⟩ := hdeclared ⟨_, hrun, hdeclares⟩
  have hheader : locate? "class Kit{Main make(){}}\u3000public class Main {}".toList "Main".toList =
      some ⟨"class Kit{Main make(){}}".toList, "\u3000public class Main ".toList, ['}']⟩ := by
    decide +kernel
  cases hfound.symm.trans hheader
  exact ⟨hname, _, hheader, hfirst, by decide, by decide, by decide⟩

end Declaration

end ClassDiagram
