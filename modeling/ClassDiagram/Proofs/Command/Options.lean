import ClassDiagram.Command.Run
import Mathlib.Data.List.Basic

/-!
# The arguments of the check

The options of the check are options of all commands. An argument that gives only options that
a command knows says the same where more options are known (`items_append`), and arguments with
an option that is not known are never understood (`covers_of_occurrences?`). So what the check
understands every command understands, reads the same inputs by the same settings, and delivers
to standard output (`Request.ofArguments?_of_validate`).
-/

namespace ClassDiagram.Command

/-! ## Items -/

section Items

variable {known more : List Switch} {switch : Switch} {attached : Option String}

theorem cluster_append {t : Text} (h : .unknown ∉ cluster known t) :
    cluster (known ++ more) t = cluster known t := by
  induction t with
  | nil => rfl
  | cons c t ih =>
      cases hfind : known.find? fun switch => switch.short? == some c with
      | none =>
          rw [cluster, hfind] at h
          exact absurd List.mem_cons_self h
      | some switch =>
          have hmore : ((known ++ more).find? fun switch => switch.short? == some c) =
              some switch := by
            rw [List.find?_append, hfind, Option.some_or]
          rw [cluster, hfind] at h
          rw [cluster, cluster, hmore, hfind]
          dsimp only at h ⊢
          split
          · rename_i hnone
            rw [if_pos hnone] at h
            rw [ih fun hmem => h (List.mem_cons_of_mem _ hmem)]
          · rfl

/-- Where all options are known, knowing more of them changes nothing. -/
theorem items_append {argument : String} (h : .unknown ∉ items known argument) :
    items (known ++ more) argument = items known argument := by
  revert h
  rw [items, items]
  split
  · exact fun _ => rfl
  · intro h
    dsimp only at h ⊢
    generalize hname : (fun switch : Switch => switch.long == String.ofList _) = isNamed at h ⊢
    cases hfind : known.find? isNamed with
    | none =>
        rw [hfind] at h
        exact absurd (List.mem_singleton.mpr rfl) h
    | some switch => rw [List.find?_append, hfind, Option.some_or]
  · exact cluster_append
  · exact fun _ => rfl

theorem mem_of_mem_cluster {t : Text} (h : .option switch attached ∈ cluster known t) :
    switch ∈ known := by
  induction t with
  | nil => cases h
  | cons c t ih =>
      rw [cluster] at h
      split at h
      · cases List.mem_singleton.mp h
      · rename_i found hfind
        have hfound := List.mem_of_find?_eq_some hfind
        split at h
        · rcases List.mem_cons.mp h with heq | hmem
          · cases heq
            exact hfound
          · exact ih hmem
        · split at h
          · cases List.mem_singleton.mp h
            exact hfound
          · cases List.mem_singleton.mp h
            exact hfound
          · cases List.mem_singleton.mp h
            exact hfound

theorem Item.eq_some_of_ofSwitch {found : Option Switch} {value : Option String}
    (h : ofSwitch found value = .option switch attached) : found = some switch := by
  cases found with
  | none => cases h
  | some other =>
      unfold ofSwitch at h
      dsimp only at h
      split at h
      · cases h
      · cases h
        rfl

/-- Arguments give only options that are known. -/
theorem mem_of_mem_items {argument : String} (h : .option switch attached ∈ items known argument) :
    switch ∈ known := by
  rw [items] at h
  split at h
  · cases List.mem_singleton.mp h
  · exact List.mem_of_find?_eq_some (Item.eq_some_of_ofSwitch (List.mem_singleton.mp h).symm)
  · exact mem_of_mem_cluster h
  · cases List.mem_singleton.mp h

end Items

/-! ## Occurrences -/

/-- The words that an option takes and the items behind them are all there is. -/
theorem takeWords_append (single : Bool) (given : List Item) :
    (takeWords single given).1.map .word ++ (takeWords single given).2 = given := by
  fun_induction takeWords single given with
  | case1 value rest => rfl
  | case2 single value rest hsingle ih => rw [List.map_cons, List.cons_append, ih]
  | case3 => rfl

/-- Items hold no unknown option, and each option that was found is among them. -/
structure Covers (given : List Item) (found : List Occurrence) : Prop where
  known : .unknown ∉ given
  option : ∀ o ∈ found, ∃ attached, .option o.switch attached ∈ given

/-- One more option in front, with words behind it that it may take. -/
theorem Covers.cons {rest : List Item} {more : List Occurrence} (h : Covers rest more)
    (switch : Switch) (attached : Option String) (values words : List String) :
    Covers (.option switch attached :: (words.map .word ++ rest)) (⟨switch, values⟩ :: more) where
  known := by simpa using h.known
  option o ho := by
    rcases List.mem_cons.mp ho with rfl | ho
    · exact ⟨attached, List.mem_cons_self⟩
    · obtain ⟨found, hfound⟩ := h.option o ho
      exact ⟨found, List.mem_cons_of_mem _ (List.mem_append_right _ hfound)⟩

/-- Items that are understood cover what is found in them. -/
theorem covers_of_occurrences? {given : List Item} {found : List Occurrence}
    (h : occurrences? given = some found) : Covers given found := by
  induction given using occurrences?.induct generalizing found with
  | case1 =>
      rw [occurrences?] at h
      cases h
      exact ⟨List.not_mem_nil, List.forall_mem_nil _⟩
  | case2 =>
      rw [occurrences?] at h
      cases h
      exact ⟨by simp, List.forall_mem_nil _⟩
  | case3 switch value rest ih =>
      rw [occurrences?] at h
      obtain ⟨more, hmore, rfl⟩ := Option.map_eq_some_iff.mp h
      exact (ih hmore).cons switch (some value) [value] []
  | case4 switch rest hnone ih =>
      rw [occurrences?, if_pos hnone] at h
      obtain ⟨more, hmore, rfl⟩ := Option.map_eq_some_iff.mp h
      exact (ih hmore).cons switch none [] []
  | case5 switch rest hvalue taken =>
      rename_i hempty
      rw [occurrences?, if_neg hvalue] at h
      dsimp only at h
      rw [if_pos hempty] at h
      cases h
  | case6 switch rest hvalue taken =>
      rename_i hwords ih
      rw [occurrences?, if_neg hvalue] at h
      dsimp only at h
      rw [if_neg hwords] at h
      obtain ⟨more, hmore, rfl⟩ := Option.map_eq_some_iff.mp h
      have hall := (ih hmore).cons switch none (takeWords (switch.arity = .one) rest).1
        (takeWords (switch.arity = .one) rest).1
      rwa [takeWords_append] at hall
  | case7 given hnil hescape hattached hoption =>
      rw [occurrences?] at h
      · cases h
      · exact hnil
      · exact hescape
      · exact hattached
      · exact hoption

/-! ## Commands -/

/-- The command of an action. -/
def Action.verb : Action → Verb
  | .parse .. => .parse
  | .diagram .. => .diagram
  | .preview .. => .preview
  | .validate => .validate

/-- Where an action delivers to. -/
def Action.output? : Action → Option String
  | .parse _ output | .diagram _ output | .preview _ output => output
  | .validate => none

theorem Verb.exists_switches (verb : Verb) : ∃ more, verb.switches = Switch.reading ++ more := by
  cases verb with
  | parse => exact ⟨_, rfl⟩
  | diagram => exact ⟨_, rfl⟩
  | preview => exact ⟨_, rfl⟩
  | validate => exact ⟨[], rfl⟩

namespace Invocation

theorem verb_actionOf (verb : Verb) (given : List Occurrence) :
    (actionOf verb given).verb = verb := by
  cases verb <;> rfl

/-- Without the option for it, there is no output. -/
theorem output?_actionOf {given : List Occurrence} (h : ∀ o ∈ given, o.switch ≠ .output)
    (verb : Verb) : (actionOf verb given).output? = none := by
  have houtput : value? given .output = none := by
    rw [value?, List.find?_eq_none.mpr fun o ho => by simpa using h o ho]
    rfl
  cases verb with
  | validate => rfl
  | parse => exact houtput
  | diagram => exact houtput
  | preview => exact houtput

/-- The arguments of the check are understood by all commands, and in the same way. -/
theorem ofArguments?_of_validate {verbose : Bool} {arguments : List String}
    {invocation : Invocation} (h : ofArguments? verbose .validate arguments = some invocation)
    (verb : Verb) : ∃ action : Action, action.verb = verb ∧ action.output? = none ∧
      ofArguments? verbose verb arguments = some { invocation with action } := by
  rw [ofArguments?] at h
  obtain ⟨given, hgiven, hproper⟩ := Option.bind_eq_some_iff.mp h
  have hcovers := covers_of_occurrences? hgiven
  obtain ⟨more, hmore⟩ := verb.exists_switches
  have hitems : arguments.flatMap (items verb.switches) =
      arguments.flatMap (items Switch.reading) := by
    rw [hmore]
    refine List.flatMap_congr fun argument hargument => items_append fun hunknown => ?_
    exact hcovers.known (List.mem_flatMap.mpr ⟨argument, hargument, hunknown⟩)
  have houtput : ∀ o ∈ given, o.switch ≠ .output := by
    intro o ho heq
    obtain ⟨attached, hoption⟩ := hcovers.option o ho
    obtain ⟨argument, -, hitem⟩ := List.mem_flatMap.mp hoption
    have hreading := mem_of_mem_items hitem
    rw [heq] at hreading
    exact absurd hreading (by decide)
  refine ⟨actionOf verb given, verb_actionOf verb given, output?_actionOf houtput verb, ?_⟩
  rw [ofArguments?, hitems]
  refine Option.bind_eq_some_iff.mpr ⟨given, hgiven, ?_⟩
  dsimp only at hproper ⊢
  split at hproper
  · rename_i hinputs
    cases hproper
    rw [if_pos hinputs]
    rfl
  · cases hproper

end Invocation

theorem Request.ofArguments?_word (verb : Verb) (arguments : List String) :
    ofArguments? (verb.word :: arguments) =
      (Invocation.ofArguments? false verb arguments).map .run := by
  have hword : items Switch.leading verb.word = [.word verb.word] := by
    cases verb <;> decide
  have hnamed : Verb.named? verb.word = some verb := by
    cases verb <;> decide
  rw [ofArguments?, read?.eq_def]
  dsimp only
  rw [hword]
  dsimp only
  rw [hnamed, Option.map_eq_bind]
  rfl

/-- Behind the word for any command, the arguments of the check ask for that command on the same
inputs, without an output. -/
theorem Request.ofArguments?_of_validate {arguments : List String} {invocation : Invocation}
    (h : ofArguments? (Verb.validate.word :: arguments) = some (.run invocation)) :
    ∃ action : Verb → Action, ∀ verb, (action verb).verb = verb ∧ (action verb).output? = none ∧
      ofArguments? (verb.word :: arguments) =
        some (.run { invocation with action := action verb }) := by
  rw [ofArguments?_word] at h
  obtain ⟨found, hfound, hrun⟩ := Option.map_eq_some_iff.mp h
  cases hrun
  have hall := Invocation.ofArguments?_of_validate hfound
  choose action haction using hall
  refine ⟨action, fun verb => ?_⟩
  obtain ⟨hverb, houtput, hsame⟩ := haction verb
  exact ⟨hverb, houtput, by rw [ofArguments?_word, hsame]; rfl⟩

end ClassDiagram.Command
