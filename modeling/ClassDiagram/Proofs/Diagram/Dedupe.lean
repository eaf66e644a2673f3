import ClassDiagram.Diagram.Relation

/-!
# Edges without repetition

Deciding edge by edge is the same as thinning the edges of whole batches afterwards:
an edge stays if neither it nor its reverse was kept before. The two runs hold
different lists all the time, but the list of the edgewise run is always the thinned
list of the other one (`addBatch_thin`). For a batch that goes as a whole holds only
edges that thinning drops as well.
-/

namespace ClassDiagram.Relation

/-! ## Thinning -/

/-- The edges of a list that are kept from left to right, after those of `kept`. An
edge goes if it was kept before, in either direction. -/
def thin (kept : List Edge) : List Edge → List Edge
  | [] => []
  | edge :: edges =>
    if edge ∈ kept ∨ edge.reversed ∈ kept then thin kept edges
    else edge :: thin (kept ++ [edge]) edges

theorem isConnected_iff {edges : List Edge} {edge : Edge} :
    isConnected edges edge = true ↔ edge ∈ edges ∨ edge.reversed ∈ edges := by
  rw [isConnected, hasSame, hasOpposite, Bool.or_eq_true, List.contains_iff_mem,
    List.contains_iff_mem]

section Thin

variable {kept edges more : List Edge} {edge : Edge}

theorem thin_cons_of_connected (h : isConnected kept edge = true) :
    thin kept (edge :: edges) = thin kept edges := by
  rw [thin, if_pos (isConnected_iff.mp h)]

theorem thin_cons_of_fresh (h : isConnected kept edge = false) :
    thin kept (edge :: edges) = edge :: thin (kept ++ [edge]) edges := by
  rw [thin, if_neg]
  intro hmem
  rw [isConnected_iff.mpr hmem] at h
  cases h

/-- Adding edges one by one adds what thinning keeps of them. -/
theorem foldl_addEdge (kept edges : List Edge) :
    edges.foldl addEdge kept = kept ++ thin kept edges := by
  induction edges generalizing kept with
  | nil => simp [thin]
  | cons edge edges ih =>
      rw [List.foldl_cons, ih, addEdge]
      cases h : isConnected kept edge with
      | true => rw [if_pos rfl, thin_cons_of_connected h]
      | false => rw [if_neg (by simp), thin_cons_of_fresh h, List.append_assoc,
          List.singleton_append]

theorem thin_append (kept edges more : List Edge) :
    thin kept (edges ++ more) = thin kept edges ++ thin (kept ++ thin kept edges) more := by
  have h : kept ++ thin kept (edges ++ more) =
      kept ++ (thin kept edges ++ thin (kept ++ thin kept edges) more) := by
    rw [← foldl_addEdge, List.foldl_append, foldl_addEdge, foldl_addEdge, List.append_assoc]
  exact List.append_cancel_left h

theorem thin_sublist (kept edges : List Edge) : (thin kept edges).Sublist edges := by
  induction edges generalizing kept with
  | nil => exact List.nil_sublist _
  | cons edge edges ih =>
      rw [thin]
      split
      · exact (ih kept).cons edge
      · exact (ih _).cons_cons edge

theorem isConnected_append (edges more : List Edge) (edge : Edge) :
    isConnected (edges ++ more) edge = true ↔
      isConnected edges edge = true ∨ isConnected more edge = true := by
  simp only [isConnected_iff, List.mem_append]
  exact or_or_or_comm

/-- An edge and its reverse are connected to the same lists of edges. -/
theorem isConnected_reversed (edges : List Edge) (edge : Edge) :
    isConnected edges edge.reversed = true ↔ isConnected edges edge = true := by
  rw [isConnected_iff, isConnected_iff, Edge.reversed_reversed, or_comm]

/-- What is connected to an edge of which a list holds either direction is connected to
the list. -/
theorem isConnected_of_singleton {next : Edge} (hnext : isConnected kept next = true)
    (h : isConnected [next] edge = true) : isConnected kept edge = true := by
  rw [isConnected_iff, List.mem_singleton, List.mem_singleton] at h
  rcases h with rfl | hreversed
  · exact hnext
  · rw [← isConnected_reversed, hreversed]
    exact hnext

/-- Thinning drops no edge whose two nodes are not related by what stays. -/
theorem isConnected_thin (kept edges : List Edge) (edge : Edge) :
    isConnected (kept ++ thin kept edges) edge = true ↔
      isConnected (kept ++ edges) edge = true := by
  induction edges generalizing kept with
  | nil => rw [thin]
  | cons next edges ih =>
      cases h : isConnected kept next with
      | false =>
          have hkeep := ih (kept ++ [next])
          rwa [List.append_assoc, List.append_assoc, List.singleton_append,
            List.singleton_append, ← thin_cons_of_fresh h] at hkeep
      | true =>
          rw [thin_cons_of_connected h, ih, isConnected_append, isConnected_append,
            ← List.singleton_append, isConnected_append]
          refine ⟨Or.imp_right .inr, ?_⟩
          rintro (hkept | hnext | hmore)
          · exact .inl hkept
          · exact .inl (isConnected_of_singleton h hnext)
          · exact .inr hmore

/-- Nothing stays of edges that are all connected to what was kept before. -/
theorem thin_eq_nil (h : ∀ edge ∈ edges, isConnected kept edge = true) : thin kept edges = [] := by
  induction edges with
  | nil => rfl
  | cons edge edges ih =>
      rw [thin_cons_of_connected (h edge (by simp)),
        ih fun other hother => h other (List.mem_cons_of_mem _ hother)]

/-- No two edges that stay are the same or each other's reverse, nor is one of them an
edge that was kept before. -/
theorem thin_pairwise (kept edges : List Edge) :
    (thin kept edges).Pairwise (fun first second => second ≠ first ∧ second ≠ first.reversed) ∧
      ∀ edge ∈ thin kept edges, isConnected kept edge = false := by
  induction edges generalizing kept with
  | nil => exact ⟨.nil, fun edge hedge => absurd hedge List.not_mem_nil⟩
  | cons next edges ih =>
      cases h : isConnected kept next with
      | true =>
          rw [thin_cons_of_connected h]
          exact ih kept
      | false =>
          obtain ⟨hpairs, hfresh⟩ := ih (kept ++ [next])
          have hsplit : ∀ edge ∈ thin (kept ++ [next]) edges,
              isConnected kept edge = false ∧ isConnected [next] edge = false := by
            intro edge hedge
            have hnone := hfresh edge hedge
            rw [← Bool.not_eq_true, isConnected_append, not_or, Bool.not_eq_true,
              Bool.not_eq_true] at hnone
            exact hnone
          rw [thin_cons_of_fresh h]
          refine ⟨List.pairwise_cons.mpr ⟨?_, hpairs⟩, ?_⟩
          · intro edge hedge
            have hnext := (hsplit edge hedge).2
            rw [← Bool.not_eq_true, isConnected_iff, List.mem_singleton, List.mem_singleton,
              not_or] at hnext
            refine ⟨hnext.1, ?_⟩
            rintro rfl
            exact hnext.2 (Edge.reversed_reversed next)
          · intro edge hedge
            rcases List.mem_cons.mp hedge with rfl | hrest
            · exact h
            · exact (hsplit edge hrest).1

end Thin

/-! ## The two runs -/

/-- One batch leaves the edgewise run with the thinned edges of the other run. -/
theorem addBatch_thin (edges batch : List Edge) :
    addBatch .perEdge (thin [] edges) batch = thin [] (addBatch .batch edges batch) := by
  have hstep : addBatch .perEdge (thin [] edges) batch =
      thin [] edges ++ thin (thin [] edges) batch := foldl_addEdge _ _
  rw [hstep, addBatch]
  split
  · rename_i hall
    -- The batch goes as a whole, and thinning finds each of its edges connected as well.
    have hnil : thin (thin [] edges) batch = [] := by
      refine thin_eq_nil fun edge hedge => ?_
      have hconnected := isConnected_thin [] edges edge
      rw [List.nil_append, List.nil_append] at hconnected
      exact hconnected.mpr (List.all_eq_true.mp hall edge hedge)
    rw [hnil, List.append_nil]
  · rw [thin_append, List.nil_append]

theorem foldl_addBatch_thin (batches : List (List Edge)) (edges : List Edge) :
    batches.foldl (addBatch .perEdge) (thin [] edges) =
      thin [] (batches.foldl (addBatch .batch) edges) := by
  induction batches generalizing edges with
  | nil => rfl
  | cons batch batches ih => rw [List.foldl_cons, List.foldl_cons, addBatch_thin, ih]

/-- Deciding edge by edge thins the edges that are derived in batches. So no edge stands
there twice or together with its reverse, none comes from elsewhere, and the same nodes
are related by the same shapes, up to direction. -/
theorem derive_perEdge_eq_thin (settings : Settings) (catalogue : Catalogue) :
    derive { settings with dedupe := .perEdge } catalogue =
        thin [] (derive { settings with dedupe := .batch } catalogue) ∧
      (derive { settings with dedupe := .perEdge } catalogue).Pairwise
        (fun first second => second ≠ first ∧ second ≠ first.reversed) ∧
      (derive { settings with dedupe := .perEdge } catalogue).Sublist
        (derive { settings with dedupe := .batch } catalogue) ∧
      ∀ edge : Edge,
        (edge ∈ derive { settings with dedupe := .perEdge } catalogue ∨
            edge.reversed ∈ derive { settings with dedupe := .perEdge } catalogue) ↔
          (edge ∈ derive { settings with dedupe := .batch } catalogue ∨
            edge.reversed ∈ derive { settings with dedupe := .batch } catalogue) := by
  have hthin : derive { settings with dedupe := .perEdge } catalogue =
      thin [] (derive { settings with dedupe := .batch } catalogue) :=
    foldl_addBatch_thin (catalogue.flatMap (batches settings catalogue)) []
  rw [hthin]
  refine ⟨rfl, (thin_pairwise _ _).1, thin_sublist _ _, fun edge => ?_⟩
  have hconnected := isConnected_thin [] (derive { settings with dedupe := .batch } catalogue) edge
  rwa [List.nil_append, List.nil_append, isConnected_iff, isConnected_iff] at hconnected

end ClassDiagram.Relation
