import ClassDiagram.Proofs.Diagram.Building

/-!
# Runs of changes

A diagram is changed step by step, and some steps are refused. Whatever the steps are, the
nodes keep identifiers of their own and no edge dangles (`Sound`). Nodes and edges stand in
the order in which they were added since the diagram was last cleared.

The preview looks up both ends of each edge and leaves out the edges whose ends it does not
find. In a sound diagram it finds all of them, so there is one line for each edge.
-/

namespace ClassDiagram.Diagram

/-- No two nodes share an identifier, and every edge runs between nodes. -/
structure Sound (d : Diagram) : Prop where
  ids : (d.nodes.map Node.id).Nodup
  source : ∀ edge ∈ d.edges, edge.source ∈ d.nodes.map Node.id
  target : ∀ edge ∈ d.edges, edge.target ∈ d.nodes.map Node.id

/-! ## One step -/

section Step

variable {d changed : Diagram} {step : Step} {fault : DiagramFault}

/-- What a step does that is not refused. -/
theorem Step.apply_cases (h : step.apply d = .ok changed) :
    (∃ node, step = .addNode node ∧ node.id ∉ d.nodes.map Node.id ∧
      changed = { d with nodes := d.nodes ++ [node] }) ∨
    (∃ edge, step = .addEdge edge ∧ edge.source ∈ d.nodes.map Node.id ∧
      edge.target ∈ d.nodes.map Node.id ∧ changed = { d with edges := d.edges ++ [edge] }) ∨
    (step = .clear ∧ changed = empty) := by
  cases step with
  | addNode node =>
      left
      change d.addNode node = _ at h
      by_cases hmem : node.id ∈ d.nodes.map Node.id
      · rw [addNode_of_mem hmem] at h
        cases h
      · rw [addNode_of_not_mem hmem] at h
        cases h
        exact ⟨node, rfl, hmem, rfl⟩
  | addEdge edge =>
      right
      left
      change d.addEdge edge = _ at h
      simp only [Diagram.addEdge, Bool.not_eq_true', ← Bool.not_eq_true, hasNode_iff, ite_not] at h
      split at h
      · rename_i hsource
        split at h
        · rename_i htarget
          cases h
          exact ⟨edge, rfl, hsource, htarget, rfl⟩
        · cases h
      · cases h
  | clear =>
      right
      right
      cases h
      exact ⟨rfl, rfl⟩

theorem after_of_ok (h : step.apply d = .ok changed) : d.after step = changed := by
  simp only [after, h]

/-- A refused step leaves the diagram as it was. -/
theorem after_of_error (h : step.apply d = .error fault) : d.after step = d := by
  simp only [after, h]

theorem sound_empty : Sound empty where
  ids := List.nodup_nil
  source _ hmem := by cases hmem
  target _ hmem := by cases hmem

/-- A new node keeps the other nodes, and so the ends of all edges. -/
theorem Sound.addNode {node : Node} (h : d.Sound) (hnew : node.id ∉ d.nodes.map Node.id) :
    Sound { d with nodes := d.nodes ++ [node] } where
  ids := by
    change ((d.nodes ++ [node]).map Node.id).Nodup
    rw [List.map_append, List.map_singleton, ← List.concat_eq_append, List.nodup_concat]
    exact ⟨hnew, h.ids⟩
  source edge hedge := by
    change edge.source ∈ (d.nodes ++ [node]).map Node.id
    rw [List.map_append]
    exact List.mem_append_left _ (h.source edge hedge)
  target edge hedge := by
    change edge.target ∈ (d.nodes ++ [node]).map Node.id
    rw [List.map_append]
    exact List.mem_append_left _ (h.target edge hedge)

theorem Sound.addEdge {edge : Edge} (h : d.Sound) (hsource : edge.source ∈ d.nodes.map Node.id)
    (htarget : edge.target ∈ d.nodes.map Node.id) :
    Sound { d with edges := d.edges ++ [edge] } where
  ids := h.ids
  source other hother := by
    rcases List.mem_append.mp hother with hold | hnew
    · exact h.source other hold
    · cases List.mem_singleton.mp hnew
      exact hsource
  target other hother := by
    rcases List.mem_append.mp hother with hold | hnew
    · exact h.target other hold
    · cases List.mem_singleton.mp hnew
      exact htarget

/-- Every step keeps a diagram sound, whether it is refused or not. -/
theorem Sound.after (h : d.Sound) (step : Step) : (d.after step).Sound := by
  cases happly : step.apply d with
  | error fault =>
      rw [after_of_error happly]
      exact h
  | ok changed =>
      rw [after_of_ok happly]
      obtain ⟨node, -, hnew, rfl⟩ | ⟨edge, -, hsource, htarget, rfl⟩ | ⟨-, rfl⟩ :=
        Step.apply_cases happly
      · exact h.addNode hnew
      · exact h.addEdge hsource htarget
      · exact sound_empty

end Step

/-! ## Runs -/

/-- The node that a step adds. -/
def Step.node? : Step → Option Node
  | addNode node => some node
  | addEdge _ => none
  | clear => none

/-- The edge that a step adds. -/
def Step.edge? : Step → Option Edge
  | addNode _ => none
  | addEdge edge => some edge
  | clear => none

/-- The steps that are not refused, in their order. -/
def accepted (d : Diagram) : List Step → List Step
  | [] => []
  | step :: steps =>
    match step.apply d with
    | .ok changed => step :: accepted changed steps
    | .error _ => accepted d steps

/-- The steps behind the last one that clears. -/
def sinceClear (steps : List Step) : List Step :=
  (steps.reverse.takeWhile fun step => step != .clear).reverse

section Run

variable {d : Diagram}

theorem Sound.run (h : d.Sound) (steps : List Step) : (run steps d).Sound := by
  induction steps generalizing d with
  | nil => exact h
  | cons step steps ih =>
      apply ih
      exact h.after step

theorem run_concat (steps : List Step) (step : Step) :
    run (steps ++ [step]) d = (run steps d).after step := by
  simp [run]

theorem accepted_concat (steps : List Step) (step : Step) :
    accepted d (steps ++ [step]) =
      accepted d steps ++ accepted (run steps d) [step] := by
  induction steps generalizing d with
  | nil => rfl
  | cons first steps ih =>
      cases happly : first.apply d with
      | error fault =>
          have hrun : run (first :: steps) d = run steps d :=
            congrArg (run steps) (after_of_error happly)
          simp only [List.cons_append, accepted, happly, ih, hrun]
      | ok changed =>
          have hrun : run (first :: steps) d = run steps changed :=
            congrArg (run steps) (after_of_ok happly)
          simp only [List.cons_append, accepted, happly, ih, hrun]

theorem sinceClear_clear (steps : List Step) : sinceClear (steps ++ [.clear]) = [] := by
  simp [sinceClear]

theorem sinceClear_concat {step : Step} (h : step ≠ .clear) (steps : List Step) :
    sinceClear (steps ++ [step]) = sinceClear steps ++ [step] := by
  simp [sinceClear, h]

/-- A run keeps what was added since it last cleared the diagram. -/
theorem run_empty (steps : List Step) :
    run steps empty =
      { nodes := (sinceClear (accepted empty steps)).filterMap Step.node?
        edges := (sinceClear (accepted empty steps)).filterMap Step.edge? } := by
  induction steps using List.reverseRecOn with
  | nil => rfl
  | append_singleton steps step ih =>
      rw [run_concat, accepted_concat]
      cases happly : step.apply (run steps empty) with
      | error fault =>
          simp only [after_of_error happly, accepted, happly, List.append_nil]
          exact ih
      | ok changed =>
          rw [after_of_ok happly]
          simp only [accepted, happly]
          obtain ⟨node, rfl, -, rfl⟩ | ⟨edge, rfl, -, -, rfl⟩ | ⟨rfl, rfl⟩ :=
            Step.apply_cases happly
          · rw [sinceClear_concat (by simp), ih]
            simp [Step.node?, Step.edge?]
          · rw [sinceClear_concat (by simp), ih]
            simp [Step.node?, Step.edge?]
          · rw [sinceClear_clear]
            rfl

end Run

/-! ## Changes in place

A diagram is one object that its steps change, so a step that fails half-way could leave a part
of its change behind. Each step makes its checks before it changes anything. -/

/-- A step as a change of the diagram in place. -/
def Step.perform : Step → ExceptT DiagramFault (StateM Diagram) Unit
  | addNode node => do
      if (← get).hasNode node.id then throw (.duplicateNode node.id)
      modify fun d => { d with nodes := d.nodes ++ [node] }
  | addEdge edge => do
      if !(← get).hasNode edge.source then throw (.missingSource edge.source)
      if !(← get).hasNode edge.target then throw (.missingTarget edge.target)
      modify fun d => { d with edges := d.edges ++ [edge] }
  | clear => do
      modify fun d => { d with nodes := [] }
      modify fun d => { d with edges := [] }

/-- The steps in place, one after the other, and what comes of each. -/
def performAll (steps : List Step) : StateM Diagram (List (Except DiagramFault Unit)) :=
  steps.mapM fun step => step.perform.run

section InPlace

variable {d : Diagram}

theorem run_get_bind (check : Diagram → ExceptT DiagramFault (StateM Diagram) Unit) :
    StateT.run (ExceptT.run (get >>= check)) d = StateT.run (ExceptT.run (check d)) d :=
  rfl

/-- In place, a step has the outcome that it has when it is applied, and leaves what it leaves
then. -/
theorem Step.run_perform (step : Step) :
    step.perform.run.run d = ((step.apply d).map fun _ => (), d.after step) := by
  cases step with
  | addNode node =>
      rw [perform, run_get_bind, after, apply, Diagram.addNode]
      split
      · rfl
      · rfl
  | addEdge edge =>
      rw [perform, run_get_bind, after, apply, Diagram.addEdge]
      split
      · rfl
      · change StateT.run (ExceptT.run (get >>= _)) d = _
        rw [run_get_bind]
        split
        · rfl
        · rfl
  | clear => rfl

theorem run_performAll (steps : List Step) : ((performAll steps).run d).2 = run steps d := by
  induction steps generalizing d with
  | nil => rfl
  | cons step steps ih =>
      have hrest : ((performAll (step :: steps)).run d).2 =
          ((performAll steps).run (step.perform.run.run d).2).2 := by
        simp only [performAll, List.mapM_cons]
        rfl
      rw [hrest, Step.run_perform, ih]
      rfl

/-- What a refused step leaves in place is what was there before. -/
theorem eq_of_perform_error {step : Step} {fault : DiagramFault} {left : Diagram}
    (h : step.perform.run.run d = (.error fault, left)) : left = d := by
  rw [Step.run_perform] at h
  obtain ⟨houtcome, rfl⟩ := Prod.mk.inj h
  cases happly : step.apply d with
  | error refusal => exact after_of_error happly
  | ok changed =>
      rw [happly] at houtcome
      cases houtcome

end InPlace

/-! ## The lines of edges -/

/-- The line names the two nodes of an edge, with the arrow of its shape between them. -/
def Relates (d : Diagram) (edge : Edge) (line : Text) : Prop :=
  ∃ source ∈ d.nodes, ∃ target ∈ d.nodes, source.id = edge.source ∧ target.id = edge.target ∧
    line = (source.typeName ++ " " ++ edge.shape.arrow ++ " " ++ target.typeName).toList

/-- The boxes of all nodes, one below the other. -/
def boxes (style : BoxStyle) (d : Diagram) : Text :=
  joined ['\n', '\n'] (d.nodes.map fun node => joined ['\n'] (node.boxLines style))

section Preview

variable {d : Diagram} {style : BoxStyle}

theorem exists_node {id : Identifier} (h : id ∈ d.nodes.map Node.id) :
    ∃ node ∈ d.nodes, node.id = id ∧ d.node? id = some node := by
  have hfound := hasNode_iff.mpr h
  rw [hasNode, Option.isSome_iff_exists] at hfound
  obtain ⟨node, hnode⟩ := hfound
  have htest := List.find?_some hnode
  exact ⟨node, List.mem_of_find?_eq_some hnode, beq_iff_eq.mp htest, hnode⟩

theorem Sound.relationLine? (h : d.Sound) {edge : Edge} (hedge : edge ∈ d.edges) :
    ∃ line, d.relationLine? edge = some line ∧ d.Relates edge line := by
  obtain ⟨source, hsource, hsourceId, hsourceFound⟩ := exists_node (h.source edge hedge)
  obtain ⟨target, htarget, htargetId, htargetFound⟩ := exists_node (h.target edge hedge)
  refine ⟨_, ?_, source, hsource, target, htarget, hsourceId, htargetId, rfl⟩
  simp only [Diagram.relationLine?, hsourceFound, htargetFound]
  rfl

/-- No edge is left out. -/
theorem Sound.relations (h : d.Sound) :
    List.Forall₂ d.Relates d.edges (d.edges.filterMap d.relationLine?) := by
  have hlines : ∀ edges ⊆ d.edges,
      List.Forall₂ d.Relates edges (edges.filterMap d.relationLine?) := by
    intro edges hsub
    induction edges with
    | nil => exact .nil
    | cons edge edges ih =>
        obtain ⟨hmem, hrest⟩ := List.cons_subset.mp hsub
        obtain ⟨line, hline, hrelates⟩ := h.relationLine? hmem
        rw [List.filterMap_cons_some hline]
        exact .cons hrelates (ih hrest)
  exact hlines d.edges (List.Subset.refl _)

theorem joined_ne_nil {separator t : Text} (ht : t ≠ []) (texts : List Text) :
    joined separator (t :: texts) ≠ [] := by
  cases texts with
  | nil => simpa [joined] using ht
  | cons u texts => simp [joined, ht]

theorem boxes_ne_nil (h : d.nodes ≠ []) : d.boxes style ≠ [] := by
  obtain ⟨node, nodes, hnodes⟩ := List.exists_cons_of_ne_nil h
  rw [boxes, hnodes, List.map_cons]
  apply joined_ne_nil
  apply joined_ne_nil
  exact List.cons_ne_nil _ _

/-- The preview of a sound diagram has its boxes, and below them the lines of its edges. -/
theorem Sound.preview (h : d.Sound) :
    d.preview style =
      d.boxes style ++
        if d.edges = [] then []
        else ['\n', '\n'] ++ joined ['\n'] (d.edges.filterMap d.relationLine?) := by
  have hlength := h.relations.length_eq
  change (if (d.edges.filterMap d.relationLine?).isEmpty then d.boxes style
    else d.boxes style ++ (if (d.boxes style).isEmpty then [] else ['\n', '\n']) ++
      joined ['\n'] (d.edges.filterMap d.relationLine?)) = _
  cases hedges : d.edges with
  | nil => simp
  | cons edge edges =>
      have hnodes : d.nodes ≠ [] := by
        have hsource := h.source edge (by simp [hedges])
        exact List.ne_nil_of_mem (List.mem_map.mp hsource).choose_spec.1
      rw [hedges] at hlength
      have hrelations : ((edge :: edges).filterMap d.relationLine?).isEmpty = false := by
        rw [List.isEmpty_eq_false_iff, ← List.length_pos_iff, ← hlength]
        exact Nat.succ_pos _
      simp [hrelations, boxes_ne_nil hnodes]

end Preview

/-- Whatever steps an empty diagram undergoes in place, its identifiers stay distinct and its
edges run between its nodes. A refused step leaves the diagram as it was. Nodes and edges are
those of the accepted steps since the diagram was last cleared, each in their order, and the
elements are the nodes and then the edges. The preview has one line for each edge, in the order
of the edges, below the boxes. -/
theorem run_sound_in_order (steps : List Step) :
    ((performAll steps).run empty).2 = run steps empty ∧
    (run steps empty).Sound ∧
    (∀ (step : Step) (fault : DiagramFault) (left : Diagram),
      step.perform.run.run (run steps empty) = (.error fault, left) → left = run steps empty) ∧
    (run steps empty).nodes = (sinceClear (accepted empty steps)).filterMap Step.node? ∧
    (run steps empty).edges = (sinceClear (accepted empty steps)).filterMap Step.edge? ∧
    (run steps empty).elements =
      (run steps empty).nodes.map .node ++ (run steps empty).edges.map .edge ∧
    ∀ style : BoxStyle, ∃ lines,
      List.Forall₂ (run steps empty).Relates (run steps empty).edges lines ∧
      (run steps empty).preview style =
        (run steps empty).boxes style ++
          if (run steps empty).edges = [] then [] else ['\n', '\n'] ++ joined ['\n'] lines := by
  have hsound := sound_empty.run steps
  have hkept := run_empty steps
  refine ⟨run_performAll steps, hsound, ?_, congrArg nodes hkept, congrArg edges hkept, rfl, ?_⟩
  · intro step fault left hrefused
    exact eq_of_perform_error hrefused
  · intro style
    exact ⟨_, hsound.relations, hsound.preview⟩

/-- The steps of a garage that is cleared once. A second node of the car is refused, and so is
an edge to the engine before the engine is there. -/
def rebuilt : List Step :=
  [.addNode Relation.vehicle.node, .clear, .addNode Relation.car.node,
    .addNode Relation.car.node, .addEdge ⟨.aggregation, Relation.car.id, Relation.engine.id⟩,
    .addNode Relation.engine.node, .addEdge ⟨.aggregation, Relation.car.id, Relation.engine.id⟩]

theorem run_sound_in_order_rebuilt :
    ((performAll rebuilt).run empty).2.nodes = [Relation.car.node, Relation.engine.node] ∧
    (Step.addNode Relation.engine.node).perform.run.run (run rebuilt empty) =
      (.error (.duplicateNode Relation.engine.id), run rebuilt empty) ∧
    ∃ line, (run rebuilt empty).Relates ⟨.aggregation, Relation.car.id, Relation.engine.id⟩ line ∧
      (run rebuilt empty).preview .ascii =
        (run rebuilt empty).boxes .ascii ++ ['\n', '\n'] ++ line := by
  have hrefused : ((Step.addNode Relation.engine.node).perform.run.run (run rebuilt empty)).1 =
      .error (.duplicateNode Relation.engine.id) := by
    decide +kernel
  have hedges : (run rebuilt empty).edges =
      [⟨.aggregation, Relation.car.id, Relation.engine.id⟩] := by
    decide +kernel
  obtain ⟨hplace, -, hkeeps, hnodes, -, -, hpreview⟩ := run_sound_in_order rebuilt
  obtain ⟨lines, hlines, htext⟩ := hpreview .ascii
  rw [hedges] at hlines htext
  obtain ⟨line, _, hline, hnil, rfl⟩ := List.forall₂_cons_left_iff.mp hlines
  cases hnil
  refine ⟨?_, Prod.ext hrefused (hkeeps _ _ _ (Prod.ext hrefused rfl)), line, hline, ?_⟩
  · rw [hplace, hnodes]
    decide +kernel
  · simpa [joined] using htext

end ClassDiagram.Diagram
