import ClassDiagram.Proofs.Diagram.Box
import ClassDiagram.Proofs.Diagram.Run
import ClassDiagram.Proofs.Text.Line

/-!
# The lines of a preview

As long as no text of a box breaks a line, a preview has the lines of its boxes, an empty line
between any two boxes, and below another empty line the lines of the edges
(`Diagram.Sound.lines_preview`).
-/

namespace ClassDiagram

namespace Diagram

/-! ## Joined texts -/

section Joined

variable {separator t u : Text} {texts : List Text}

theorem joined_cons_cons (separator t u : Text) (texts : List Text) :
    joined separator (t :: u :: texts) = t ++ (separator ++ joined separator (u :: texts)) := by
  simp [joined]

theorem joined_singleton (separator t : Text) : joined separator [t] = t := by
  simp [joined]

/-- Unbroken lines come back from the text that they are joined to. -/
theorem lines_joined (hne : texts ≠ []) (h : ∀ t ∈ texts, '\n' ∉ t) :
    Text.lines (joined ['\n'] texts) = texts := by
  induction texts with
  | nil => exact absurd rfl hne
  | cons t texts ih =>
      obtain ⟨ht, hrest⟩ := List.forall_mem_cons.mp h
      cases texts with
      | nil =>
          rw [joined_singleton]
          exact Text.lines_of_not_mem ht
      | cons u texts =>
          rw [joined_cons_cons, List.singleton_append, Text.lines_append_lineFeed,
            Text.lines_of_not_mem ht, ih (List.cons_ne_nil _ _) hrest]
          rfl

/-- Two line feeds put one empty line between the lines of two texts. -/
theorem lines_append_blankLine (s t : Text) :
    Text.lines (s ++ (['\n', '\n'] ++ t)) = Text.lines s ++ [] :: Text.lines t := by
  change Text.lines (s ++ '\n' :: ([] ++ '\n' :: t)) = _
  rw [Text.lines_append_lineFeed, Text.lines_append_lineFeed]
  rfl

theorem lines_joined_apart (hne : texts ≠ []) :
    Text.lines (joined ['\n', '\n'] texts) = ((texts.map Text.lines).intersperse [[]]).flatten := by
  induction texts with
  | nil => exact absurd rfl hne
  | cons t texts ih =>
      cases texts with
      | nil => simp [joined_singleton]
      | cons u texts =>
          rw [joined_cons_cons, lines_append_blankLine, ih (List.cons_ne_nil _ _)]
          simp

end Joined

/-! ## Boxes and edges -/

/-- No text of a box breaks a line. -/
def Unbroken (d : Diagram) : Prop := ∀ node ∈ d.nodes, ∀ t ∈ node.texts, '\n' ∉ t

section Preview

variable {d : Diagram} {style : BoxStyle}

theorem lines_boxes (hne : d.nodes ≠ []) (h : d.Unbroken) :
    Text.lines (d.boxes style) =
      ((d.nodes.map (Node.boxLines style)).intersperse [[]]).flatten := by
  have hblock : ∀ node ∈ d.nodes,
      Text.lines (joined ['\n'] (node.boxLines style)) = node.boxLines style := by
    intro node hnode
    apply lines_joined
    · exact List.cons_ne_nil _ _
    · intro line hline
      exact Node.lineFeed_not_mem_of_mem_boxLines (h node hnode) hline
  rw [boxes, lines_joined_apart (by simpa using hne), List.map_map]
  congr 2
  exact List.map_congr_left hblock

theorem lineFeed_not_mem_typeName {node : Node} (h : ∀ t ∈ node.texts, '\n' ∉ t) :
    '\n' ∉ node.typeName.toList := by
  rw [Node.typeName]
  cases hlast : node.name.getLast? with
  | none => exact List.not_mem_nil
  | some name =>
      apply h
      apply List.mem_append_left
      exact List.mem_map_of_mem (List.mem_of_getLast? hlast)

theorem Relates.lineFeed_not_mem (h : d.Unbroken) {edge : Edge} {line : Text}
    (hline : d.Relates edge line) : '\n' ∉ line := by
  obtain ⟨source, hsource, target, htarget, -, -, rfl⟩ := hline
  have hfrom := lineFeed_not_mem_typeName (h source hsource)
  have hto := lineFeed_not_mem_typeName (h target htarget)
  have harrow : '\n' ∉ edge.shape.arrow.toList := by
    cases edge.shape <;> decide
  simp [hfrom, hto, harrow]

/-- The lines of a preview are those of its boxes and of its edges, set apart by empty lines. -/
theorem Sound.lines_preview (hsound : d.Sound) (hne : d.nodes ≠ []) (h : d.Unbroken) :
    Text.lines (d.preview style) =
      ((d.nodes.map (Node.boxLines style)).intersperse [[]]).flatten ++
        if d.edges = [] then [] else [] :: d.edges.filterMap d.relationLine? := by
  rw [hsound.preview, ← lines_boxes hne h]
  split
  · rw [List.append_nil, List.append_nil]
  · rename_i hedges
    rw [lines_append_blankLine, lines_joined]
    · rw [← List.length_pos_iff, ← hsound.relations.length_eq]
      exact List.length_pos_iff.mpr hedges
    · intro line hline
      obtain ⟨edge, hedge, hfound⟩ := List.mem_filterMap.mp hline
      obtain ⟨other, hother, hrelates⟩ := hsound.relationLine? hedge
      rw [hfound] at hother
      cases hother
      exact hrelates.lineFeed_not_mem h

end Preview

end Diagram

end ClassDiagram
