import ClassDiagram.Proofs.Command.Options
import ClassDiagram.Proofs.Diagram.Building
import ClassDiagram.Proofs.Json.Model
import ClassDiagram.Proofs.Project.Levels

/-!
# What the commands have in common

All commands read the same sources and make a catalogue of them before they differ. Whether
there is a catalogue, and how many entries it has, does not depend on the identifiers drawn
for it (`Project.length_catalogue`). With a catalogue every command has a product, so what can
fail fails in all of them alike (`agree_of_actions`).

A file is written only when all else has been done, so a run that fails has written nothing or
fails over the writing of that file. It leaves a trace only if the file could be opened and did
not take all of its content (`failed_cases`).
-/

namespace ClassDiagram

namespace Project

/-! ## Catalogues under other identifiers -/

/-- Under other identifiers a queue is refused for the same fault, or it is read to as many
entries. -/
theorem length_readQueue (settings : Settings) (supply other : Identifier.Supply) (number : Nat)
    (queue : List SourceFile) :
    (readQueue (reader settings other) number queue).map List.length =
      (readQueue (reader settings supply) number queue).map List.length := by
  have hstep (entry : Entry) (rest : Except Fault Catalogue) :
      (rest.map (entry :: ·)).map List.length = (rest.map List.length).map (· + 1) := by
    cases rest <;> rfl
  induction hbraces : SourceFile.bracesOf queue using Nat.strongRecOn generalizing number queue with
  | ind n ih =>
      cases queue with
      | nil => rw [readQueue_nil, readQueue_nil]
      | cons file queue =>
          cases hread : (reader settings supply).read number file with
          | error fault =>
              have hother : (reader settings other).read number file = .error fault :=
                SourceFile.read_error_of_error hread _
              rw [readQueue_cons_error hread, readQueue_cons_error hother]
          | ok reading =>
              have hother : (reader settings other).read number file =
                  .ok { reading with entry := { reading.entry with id := other number } } := by
                change file.read settings (other number) = _
                rw [SourceFile.read_withId settings (supply number)]
                change ((reader settings supply).read number file).map _ = _
                rw [hread]
                rfl
              have hless : SourceFile.bracesOf (queue ++ reading.children) < n := by
                have := SourceFile.braces_children hread
                rw [SourceFile.bracesOf_cons] at hbraces
                rw [SourceFile.bracesOf_append]
                omega
              rw [readQueue_cons_ok hread, readQueue_cons_ok hother, hstep, hstep,
                ih _ hless _ _ rfl]

theorem length_catalogue (settings : Settings) (supply other : Identifier.Supply)
    (files : List SourceFile) :
    (catalogue settings other files).map List.length =
      (catalogue settings supply files).map List.length := by
  rw [catalogue, catalogue]
  split
  · rfl
  · exact length_readQueue settings supply other 0 files

section Supply

variable {settings : Settings} {supply : Identifier.Supply} {files : List SourceFile}

theorem catalogue_error_of_error {fault : Fault}
    (h : catalogue settings supply files = .error fault) (other : Identifier.Supply) :
    catalogue settings other files = .error fault := by
  have hlength := length_catalogue settings supply other files
  rw [h] at hlength
  cases hother : catalogue settings other files with
  | error found =>
      rw [hother] at hlength
      cases hlength
      rfl
  | ok entries =>
      rw [hother] at hlength
      cases hlength

theorem catalogue_ok_of_ok {entries : Catalogue}
    (h : catalogue settings supply files = .ok entries) (other : Identifier.Supply) :
    ∃ again, catalogue settings other files = .ok again ∧ again.length = entries.length := by
  have hlength := length_catalogue settings supply other files
  rw [h] at hlength
  cases hother : catalogue settings other files with
  | error fault =>
      rw [hother] at hlength
      cases hlength
  | ok again =>
      rw [hother] at hlength
      exact ⟨again, rfl, Except.ok.inj hlength⟩

end Supply

end Project

open Json

/-! ## Nodes among elements -/

/-- The values of the elements that are read as nodes are those of the nodes. -/
theorem Diagram.countP_nodes (d : Diagram) :
    (d.elements.map Element.toJson).countP (fun v => (Node.ofJson? v).isSome) = d.nodes.length := by
  have hnodes : (d.nodes.map Node.toJson).countP (fun v => (Node.ofJson? v).isSome) =
      d.nodes.length := by
    rw [List.countP_map, List.countP_eq_length]
    intro node _
    simp [Node.faithful.read_write node]
  have hedges : (d.edges.map Edge.toJson).countP (fun v => (Node.ofJson? v).isSome) = 0 := by
    rw [List.countP_map, List.countP_eq_zero]
    intro edge _
    simp [Node.ofJson?_edge edge]
  have hmap : d.elements.map Element.toJson =
      d.nodes.map Node.toJson ++ d.edges.map Edge.toJson := by
    rw [elements, List.map_append, List.map_map, List.map_map]
    rfl
  rw [hmap, List.countP_append, hnodes, hedges, Nat.add_zero]

namespace Command

/-! ## Texts on standard output -/

/-- A terminal shows a content and at most one line feed behind it. -/
theorem terminated_cases (content : String) :
    terminated content = content ∨ terminated content = content ++ "\n" := by
  rw [terminated]
  split
  · exact .inl rfl
  · exact .inr rfl

/-- A JSON value is read back from what is shown of it. -/
theorem read?_terminated {v : Value} (h : v.Textual) (pretty : Bool) :
    Value.read? (terminated (jsonText pretty v)).toList = some v := by
  have hform : ∃ layout : Layout, (jsonText pretty v).toList = v.write layout := by
    cases pretty with
    | true => exact ⟨.pretty 0, String.toList_ofList⟩
    | false => exact ⟨.compact, String.toList_ofList⟩
  obtain ⟨layout, hlayout⟩ := hform
  rcases terminated_cases (jsonText pretty v) with hsame | hbreak
  · rw [hsame, hlayout, Value.read?_write h]
  · rw [hbreak, String.toList_append, hlayout]
    exact h.read?_write_append layout (List.forall_mem_singleton.mpr rfl)

theorem terminated_count (count : Nat) :
    terminated ("ok: " ++ toString count ++ " types") = "ok: " ++ toString count ++ " types\n" := by
  have hlast : ("ok: " ++ toString count ++ " types").toList.getLast? = some 's' := by
    rw [String.toList_append, List.getLast?_append]
    rfl
  have hbreak : " types" ++ "\n" = " types\n" := by decide
  rw [terminated, hlast, if_neg (by simp), String.append_assoc, hbreak]

/-! ## Runs -/

/-- The identifiers to draw have no part in what is read. -/
theorem sources_supply (env : Environment) (supply : Identifier.Supply) (name : Option String)
    (stdin : String) (inputs : List String) :
    sources { env with supply } name stdin inputs = sources env name stdin inputs := by
  induction inputs generalizing name stdin with
  | nil => rfl
  | cons path paths ih =>
      rw [sources.eq_def, sources.eq_def env]
      simp only [ih]

/-- What a run says before it looks at its inputs. -/
def Invocation.opening (invocation : Invocation) (env : Environment) : List String :=
  logWarning env ++ invocation.says (some banner)

/-- What a run has said when it has read its inputs. -/
def Invocation.counted (invocation : Invocation) (env : Environment)
    (files : List SourceFile) : List String :=
  invocation.opening env ++
    invocation.says (some ("Read " ++ toString files.length ++ " source files"))

section Plan

variable {env : Environment} {files : List SourceFile}

theorem plan_of_unread (invocation : Invocation) {fault : RunFault}
    (h : sources env invocation.name env.stdin invocation.inputs = .error fault) :
    plan env invocation = .done (.failed (invocation.opening env) fault "") := by
  rw [plan, h]
  rfl

theorem plan_of_fault (invocation : Invocation) {fault : ProjectFault}
    (hfiles : sources env invocation.name env.stdin invocation.inputs = .ok files)
    (h : invocation.action.product invocation.settings env.supply files = .error fault) :
    plan env invocation = .done (.failed (invocation.counted env files) (.project fault)
      (invocation.action.complaint fault)) := by
  rw [plan, hfiles]
  dsimp only
  rw [h]
  rfl

theorem plan_of_product (invocation : Invocation) {product : Product}
    (hfiles : sources env invocation.name env.stdin invocation.inputs = .ok files)
    (h : invocation.action.product invocation.settings env.supply files = .ok product) :
    plan env invocation =
      deliver (invocation.counted env files ++ invocation.says product.note) product := by
  rw [plan, hfiles]
  dsimp only
  rw [h]
  rfl

/-- A product without an output is shown on standard output. -/
theorem deliver_of_none {product : Product} (h : product.output = none) (said : List String) :
    deliver said product =
      .done { stdout := terminated product.content, stderr := lines said } := by
  rw [deliver, h]
  rfl

/-- A plan that ends without a file to write has written none. -/
theorem written_of_plan {invocation : Invocation} {outcome : Outcome}
    (h : plan env invocation = .done outcome) : outcome.written = none := by
  cases hfiles : sources env invocation.name env.stdin invocation.inputs with
  | error fault =>
      rw [plan_of_unread invocation hfiles] at h
      cases h
      rfl
  | ok files =>
      cases hproduct : invocation.action.product invocation.settings env.supply files with
      | error fault =>
          rw [plan_of_fault invocation hfiles hproduct] at h
          cases h
          rfl
      | ok product =>
          rw [plan_of_product invocation hfiles hproduct, deliver] at h
          split at h
          · cases h
            rfl
          · cases h

end Plan

/-! ## Runs that fail -/

/-- A run has opened a file that did not take all of its content, and tells so at last. -/
def Outcome.BrokenOff (outcome : Outcome) (write : String → String → Writing) : Prop :=
  ∃ said path content kept reason, write path content = .broken kept reason ∧
    outcome.written = some (path, kept) ∧
    outcome.stderr = lines (said ++ ["Error: " ++ (RunFault.unwritable path reason).message])

/-- A run that fails has left every file as it was, or its writing has broken off. -/
theorem failed_cases {around : Surroundings} {arguments : List String} {outcome : Outcome}
    (h : execute around arguments = some outcome) (hcode : outcome.code = 1) :
    outcome.written = none ∨ outcome.BrokenOff around.write := by
  rw [execute] at h
  split at h
  · cases h
  · cases h
    cases hcode
  · rename_i invocation _
    cases h
    rw [run] at hcode ⊢
    cases hplan : plan around.toEnvironment invocation with
    | done outcome => exact .inl (written_of_plan hplan)
    | write said path content =>
        rw [hplan] at hcode
        cases hwriting : around.write path content with
        | refused reason =>
            exact .inl (by simp [Plan.outcome, hwriting, Writing.failure?, Writing.held?])
        | broken kept reason =>
            refine .inr ⟨said, path, content, kept, reason, hwriting, ?_⟩
            simp [Plan.outcome, hwriting, Writing.failure?, Writing.held?, Outcome.failed]
        | complete => simp [Plan.outcome, hwriting, Writing.failure?] at hcode

/-- A writing to a tree breaks off if the medium does at the place of the file. -/
theorem FileTree.writing_broken {tree : FileTree} {medium : Medium} {path content kept : String}
    {reason : FileFailure} (h : tree.writing medium path content = .broken kept reason) :
    ∃ place, tree.target path = .ok place ∧ medium place content = some (kept, reason) := by
  rw [writing] at h
  split at h
  · cases h
  · rename_i place hplace
    split at h
    · cases h
    · rename_i hmedium
      cases h
      exact ⟨place, hplace, hmedium⟩

/-! ## Products -/

section Product

variable {settings : Settings} {supply : Identifier.Supply} {files : List SourceFile}

theorem Action.eq_parse_of_verb {action : Action} (h : action.verb = .parse) :
    ∃ pretty output, action = .parse pretty output := by
  cases action with
  | parse pretty output => exact ⟨pretty, output, rfl⟩
  | _ => cases h

theorem Action.eq_diagram_of_verb {action : Action} (h : action.verb = .diagram) :
    ∃ pretty output, action = .diagram pretty output := by
  cases action with
  | diagram pretty output => exact ⟨pretty, output, rfl⟩
  | _ => cases h

theorem Action.eq_validate_of_verb {action : Action} (h : action.verb = .validate) :
    action = .validate := by
  cases action with
  | validate => rfl
  | _ => cases h

/-- The content that an action delivers about a catalogue. -/
def Action.content (settings : Settings) (entries : Catalogue) : Action → String
  | .parse pretty _ => jsonText pretty (Catalogue.toJson entries)
  | .diagram pretty _ => jsonText pretty (Diagram.complete settings entries).toJson
  | .preview style _ => String.ofList ((Diagram.complete settings entries).preview style)
  | .validate => "ok: " ++ toString entries.length ++ " types"

/-- With a catalogue under distinct identifiers every action has a product. -/
theorem Action.product_of_catalogue {entries : Catalogue}
    (h : Project.catalogue settings supply files = .ok entries)
    (hdrawn : supply.Distinct entries.length) (action : Action) :
    ∃ note, action.product settings supply files =
      .ok ⟨note, action.content settings entries, action.output?⟩ := by
  have hdiagram := Project.diagram_of_catalogue h hdrawn
  cases action with
  | parse pretty output =>
      rw [product, h]
      exact ⟨_, rfl⟩
  | diagram pretty output =>
      rw [product, hdiagram]
      exact ⟨_, rfl⟩
  | preview style output =>
      rw [product, Project.preview, hdiagram]
      exact ⟨_, rfl⟩
  | validate =>
      rw [product, h]
      exact ⟨_, rfl⟩

/-- Without a catalogue no action has a product, and all fail for the same reason. -/
theorem Action.product_of_fault {fault : Fault}
    (h : Project.catalogue settings supply files = .error fault) (action : Action) :
    action.product settings supply files = .error (.reading fault) := by
  have hdiagram := Project.diagram_of_fault h
  cases action with
  | parse pretty output =>
      rw [product, h]
      rfl
  | diagram pretty output =>
      rw [product, hdiagram]
      rfl
  | preview style output =>
      rw [product, Project.preview, hdiagram]
      rfl
  | validate =>
      rw [product, h]
      rfl

end Product

/-! ## All commands -/

/-- The identifiers that a run draws for the entries of its catalogue are distinct. -/
def Invocation.DrawsDistinct (invocation : Invocation) (around : Surroundings) : Prop :=
  ∀ files entries,
    sources around.toEnvironment invocation.name around.stdin invocation.inputs = .ok files →
    Project.catalogue invocation.settings around.supply files = .ok entries →
      around.supply.Distinct entries.length

/-- The commands agree: all of them fail with the same text on standard error, which ends in the
same message, or all of them succeed. Then the array of the catalogue has as many items as the
array of the diagram has nodes, and as the check counts. -/
def Agree (outcome : Verb → Option Outcome) : Prop :=
  (∃ said fault, ∀ verb, ∃ failed, outcome verb = some failed ∧ failed.code = 1 ∧
    failed.stderr = lines (said ++ ["Error: " ++ RunFault.message fault])) ∨
  ∃ (done : Verb → Outcome) (entries elements : List Value),
    (∀ verb, outcome verb = some (done verb) ∧ (done verb).code = 0) ∧
    Value.read? (done .parse).stdout.toList = some (.array entries) ∧
    Value.read? (done .diagram).stdout.toList = some (.array elements) ∧
    elements.countP (fun v => (Node.ofJson? v).isSome) = entries.length ∧
    (done .validate).stdout = "ok: " ++ toString entries.length ++ " types\n"

section Agreement

variable {around : Surroundings} {supply : Verb → Identifier.Supply} {reading : Invocation}
  {action : Verb → Action}

/-- The commands agree on sources that have a catalogue. -/
theorem agree_of_catalogue {files : List SourceFile} {entries : Catalogue}
    (haction : ∀ verb, (action verb).verb = verb ∧ (action verb).output? = none)
    (hdrawn : ∀ verb, reading.DrawsDistinct { around with supply := supply verb })
    (hfiles : ∀ verb, sources { around.toEnvironment with supply := supply verb } reading.name
      around.stdin reading.inputs = .ok files)
    (hentries : Project.catalogue reading.settings (supply .validate) files = .ok entries) :
    Agree fun verb =>
      some (run { around with supply := supply verb } { reading with action := action verb }) := by
  -- every command draws identifiers of its own
  have hcatalogue (verb : Verb) : ∃ own : Catalogue,
      Project.catalogue reading.settings (supply verb) files = .ok own ∧
        own.length = entries.length := Project.catalogue_ok_of_ok hentries (supply verb)
  choose own hown hlength using hcatalogue
  have hrun (verb : Verb) :
      ∃ note, run { around with supply := supply verb } { reading with action := action verb } =
        { stdout := terminated ((action verb).content reading.settings (own verb))
          stderr := note } := by
    obtain ⟨note, hproduct⟩ := Action.product_of_catalogue (hown verb)
      (hdrawn verb files (own verb) (hfiles verb) (hown verb)) (action verb)
    have hplan := plan_of_product { reading with action := action verb } (hfiles verb) hproduct
    rw [deliver_of_none (haction verb).2] at hplan
    exact ⟨_, by rw [run, hplan, Plan.outcome]⟩
  choose note hnote using hrun
  obtain ⟨parsePretty, parseOutput, hparse⟩ := Action.eq_parse_of_verb (haction .parse).1
  obtain ⟨diagramPretty, diagramOutput, hdiagram⟩ := Action.eq_diagram_of_verb (haction .diagram).1
  have hvalidate := Action.eq_validate_of_verb (haction .validate).1
  refine .inr ⟨fun verb =>
      run { around with supply := supply verb } { reading with action := action verb },
    (own .parse).map Entry.toJson,
    (Diagram.complete reading.settings (own .diagram)).elements.map Element.toJson,
    fun verb => ⟨rfl, ?_⟩, ?_, ?_, ?_, ?_⟩
  · dsimp only
    rw [hnote verb]
  · dsimp only
    rw [hnote .parse, hparse]
    exact read?_terminated (Entry.faithful.list.textual (own .parse)) parsePretty
  · dsimp only
    rw [hnote .diagram, hdiagram]
    exact read?_terminated (Element.faithful.list.textual _) diagramPretty
  · rw [Diagram.countP_nodes, List.length_map, hlength .parse, ← hlength .diagram]
    exact List.length_map _
  · dsimp only
    rw [hnote .validate, hvalidate, List.length_map, hlength .parse, ← hlength .validate]
    exact terminated_count (own .validate).length

/-- Commands without an output that read the same inputs by the same settings agree. -/
theorem agree_of_actions
    (haction : ∀ verb, (action verb).verb = verb ∧ (action verb).output? = none)
    (hdrawn : ∀ verb, reading.DrawsDistinct { around with supply := supply verb }) :
    Agree fun verb =>
      some (run { around with supply := supply verb } { reading with action := action verb }) := by
  have hsources (verb : Verb) := sources_supply around.toEnvironment (supply verb) reading.name
    around.stdin reading.inputs
  cases hfiles : sources around.toEnvironment reading.name around.stdin reading.inputs with
  | error fault =>
      refine .inl ⟨reading.opening around.toEnvironment, fault, fun verb => ⟨_, rfl, ?_⟩⟩
      rw [run, plan_of_unread { reading with action := action verb } ((hsources verb).trans hfiles)]
      exact ⟨rfl, rfl⟩
  | ok files =>
      cases hentries : Project.catalogue reading.settings (supply .validate) files with
      | error fault =>
          refine .inl ⟨reading.counted around.toEnvironment files, .project (.reading fault),
            fun verb => ⟨_, rfl, ?_⟩⟩
          have hown := Project.catalogue_error_of_error hentries (supply verb)
          rw [run, plan_of_fault { reading with action := action verb }
            ((hsources verb).trans hfiles) (Action.product_of_fault hown (action verb))]
          exact ⟨rfl, rfl⟩
      | ok entries =>
          have hread (verb : Verb) := (hsources verb).trans hfiles
          exact agree_of_catalogue haction hdrawn hread hentries

end Agreement

/-- Command lines that ask for the four commands on the same inputs and by the same settings, and
for no output, agree, provided that each run draws distinct identifiers. Whatever arguments the
check understands are such command lines behind the word for each command. And whatever the
arguments are, an output among them or not, a run that fails has changed nothing if every file
that can be opened can be written. On any other medium it has changed nothing either, unless it
fails because the medium has broken off the writing of its output. -/
theorem commands_agree :
    (∀ (around : Surroundings) (supply : Verb → Identifier.Supply)
      (arguments : Verb → List String) (reading : Invocation) (action : Verb → Action),
      (∀ verb, Request.ofArguments? (arguments verb) =
        some (.run { reading with action := action verb })) →
      (∀ verb, (action verb).verb = verb ∧ (action verb).output? = none) →
      (∀ verb, reading.DrawsDistinct { around with supply := supply verb }) →
        Agree fun verb => execute { around with supply := supply verb } (arguments verb)) ∧
    (∀ (around : Surroundings) (supply : Verb → Identifier.Supply) (arguments : List String)
      (reading : Invocation),
      Request.ofArguments? (Verb.validate.word :: arguments) = some (.run reading) →
      (∀ verb, reading.DrawsDistinct { around with supply := supply verb }) →
        Agree fun verb =>
          execute { around with supply := supply verb } (verb.word :: arguments)) ∧
    ∀ (tree : FileTree) (medium : Medium) (stdin : String) (logFormat : Option String)
      (supply : Identifier.Supply) (arguments : List String) (outcome : Outcome),
      execute (tree.surroundings stdin logFormat supply medium) arguments = some outcome →
      outcome.code = 1 →
        (medium.TakesOpened → outcome.written = none ∧ tree.afterRun outcome = tree) ∧
        (outcome.written = none ∧ tree.afterRun outcome = tree ∨
          ∃ said path place content kept reason, tree.target path = .ok place ∧
            medium place content = some (kept, reason) ∧
            tree.afterRun outcome = tree.write place kept ∧
            outcome.stderr =
              lines (said ++ ["Error: " ++ (RunFault.unwritable path reason).message])) := by
  have hexecute (around : Surroundings) (arguments : List String) (invocation : Invocation)
      (h : Request.ofArguments? arguments = some (.run invocation)) :
      execute around arguments = some (run around invocation) := by
    rw [execute, h]
  refine ⟨?_, ?_, ?_⟩
  · intro around supply arguments reading action harguments haction hdrawn
    have hagree := agree_of_actions haction hdrawn
    simp only [hexecute _ _ _ (harguments _)]
    exact hagree
  · intro around supply arguments reading hreading hdrawn
    obtain ⟨action, haction⟩ := Request.ofArguments?_of_validate hreading
    have hactions : ∀ verb, (action verb).verb = verb ∧ (action verb).output? = none :=
      fun verb => ⟨(haction verb).1, (haction verb).2.1⟩
    have hagree := agree_of_actions hactions hdrawn
    simp only [hexecute _ _ _ (haction _).2.2]
    exact hagree
  · intro tree medium stdin logFormat supply arguments outcome hrun hcode
    rcases failed_cases hrun hcode with hwritten | hbroken
    · have hsame : tree.afterRun outcome = tree := by rw [FileTree.afterRun, hwritten]
      exact ⟨fun _ => ⟨hwritten, hsame⟩, .inl ⟨hwritten, hsame⟩⟩
    · obtain ⟨said, path, content, kept, reason, hwriting, hwritten, hstderr⟩ := hbroken
      obtain ⟨place, hplace, hmedium⟩ := FileTree.writing_broken hwriting
      refine ⟨fun htakes => ?_, .inr ⟨said, path, place, content, kept, reason, hplace, hmedium,
        ?_, hstderr⟩⟩
      · rw [htakes] at hmedium
        cases hmedium
      · rw [FileTree.afterRun, hwritten]
        dsimp only
        rw [hplace]

/-- The files of the kennel. -/
def kennelTree : FileTree where
  files := [(["Dog.java"], "class Dog extends Animal {}"), (["Animal.java"], "class Animal {}")]
  directories := []

/-- The kennel is read by all commands to two types, each with an option of its own where it has
one. An output in a directory that is missing changes nothing. -/
theorem commands_agree_kennel :
    let around := kennelTree.surroundings "" none Identifier.ofNat
    let inputs := ["-i", "Dog.java", "Animal.java"]
    let own : Verb → List String
      | .parse | .diagram => ["--pretty"]
      | .preview => ["--style", "ascii"]
      | .validate => []
    let outcome (verb : Verb) := execute around (verb.word :: inputs ++ own verb)
    let plain (verb : Verb) := execute around (verb.word :: inputs)
    (Agree outcome ∧ ∀ verb, (outcome verb).map Outcome.code = some 0) ∧
    (Agree plain ∧ (∀ verb, (plain verb).map Outcome.code = some 0) ∧
      (plain .validate).map Outcome.stdout = some "ok: 2 types\n") ∧
    ∃ outcome, execute around ("parse" :: inputs ++ ["-o", "out/kennel.json"]) = some outcome ∧
      outcome.code = 1 ∧ outcome.written = none ∧ kennelTree.afterRun outcome = kennelTree := by
  intro around inputs own
  let reading : Invocation :=
    { verbose := false, inputs := ["Dog.java", "Animal.java"], name := none, settings := {},
      action := .validate }
  let action : Verb → Action
    | .parse => .parse true none
    | .diagram => .diagram true none
    | .preview => .preview .ascii none
    | .validate => .validate
  have hdrawn : reading.DrawsDistinct around := by
    intro files entries hfiles hentries
    have hkennel : sources around.toEnvironment none "" ["Dog.java", "Animal.java"] =
        .ok kennel := by
      decide +kernel
    cases hfiles.symm.trans hkennel
    have hcount : (Project.catalogue {} Identifier.ofNat kennel).map List.length = .ok 2 := by
      decide +kernel
    have hlength : entries.length = 2 := by
      have hsame := congrArg (Except.map List.length) hentries
      exact Except.ok.inj (hsame.symm.trans hcount)
    rw [hlength]
    unfold Identifier.Supply.Distinct
    decide +kernel
  obtain ⟨hlines, hcheck, hfailed⟩ := commands_agree
  refine ⟨⟨?_, ?_⟩, ⟨?_, ?_, ?_⟩, ?_⟩
  · refine hlines around (fun _ => Identifier.ofNat) _ reading action ?_ ?_ fun _ => hdrawn
    · intro verb
      cases verb <;> decide +kernel
    · intro verb
      cases verb <;> exact ⟨rfl, rfl⟩
  · intro verb
    cases verb <;> decide +kernel
  · exact hcheck around (fun _ => Identifier.ofNat) inputs reading (by decide +kernel)
      fun _ => hdrawn
  · intro verb
    cases verb <;> decide +kernel
  · decide +kernel
  · have hrun : (execute around ("parse" :: inputs ++ ["-o", "out/kennel.json"])).map
        Outcome.code = some 1 := by
      decide +kernel
    obtain ⟨outcome, houtcome, hcode⟩ := Option.map_eq_some_iff.mp hrun
    have hsame := (hfailed kennelTree .sound "" none _ _ outcome houtcome hcode).1 fun _ _ => rfl
    exact ⟨outcome, houtcome, hcode, hsame⟩

end Command

end ClassDiagram
