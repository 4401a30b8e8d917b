import Linkage.Proofs.Uprooting
/-!
The same trees in other slots. A tree and its slots in pre-order say all there is to say of trees
whose operations know their slots, so of two lists of the same trees one is the other with its
slots renumbered.
-/
namespace Linkage

namespace Placed

variable {place : OpId → OpId}

theorem ids_node (id : OpId) (root : Node) (regions : List (List Placed)) :
    (node id root regions).ids = id :: regions.flatten.flatMap ids := by
  rw [ids, entries_node, List.map_cons, List.map_flatMap]
  rfl

theorem length_ids (p : Placed) : p.ids.length = p.tree.size := by
  rw [ids, List.length_map, size_tree]

theorem eq_of_treeList {ps qs : List Placed}
    (each : ∀ p ∈ ps, ∀ q : Placed, p.tree = q.tree → p.ids = q.ids → p = q)
    (trees : ps.map tree = qs.map tree) (slots : ps.flatMap ids = qs.flatMap ids) : ps = qs := by
  induction ps generalizing qs with
  | nil => exact (List.map_eq_nil_iff.mp trees.symm).symm
  | cons p rest ih =>
    obtain ⟨q, others, rfl, head, tail⟩ := List.map_eq_cons_iff.mp trees.symm
    have length : p.ids.length = q.ids.length := by rw [length_ids, length_ids, head]
    obtain ⟨first, later⟩ := List.append_inj slots length
    rw [each p List.mem_cons_self q head.symm first,
      ih (fun r hr => each r (List.mem_cons_of_mem p hr)) tail.symm later]

/-- A tree with slots is given by the tree and the slots in pre-order. -/
theorem eq_of_tree {p q : Placed} (trees : p.tree = q.tree) (slots : p.ids = q.ids) : p = q := by
  induction p generalizing q with
  | node id root regions ih =>
    obtain ⟨id', root', regions'⟩ := q
    rw [tree_node, tree_node] at trees
    rw [ids_node, ids_node] at slots
    obtain ⟨rfl, nested⟩ := Tree.node.inj trees
    obtain ⟨rfl, below⟩ := List.cons_eq_cons.mp slots
    have flat : regions.flatten = regions'.flatten := by
      refine eq_of_treeList (fun p hp q => ?_) ?_ below
      · obtain ⟨region, hregion, hmem⟩ := List.mem_flatten.mp hp
        exact ih region hregion p hmem
      · rw [List.map_flatten, List.map_flatten, nested]
    have lengths : regions.map List.length = regions'.map List.length := by
      simpa [Function.comp_def] using congrArg (List.map List.length) nested
    rw [List.eq_iff_flatten_eq.mpr ⟨flat, lengths⟩]

mutual

def relabel (place : OpId → OpId) : Placed → Placed
  | .node id root regions => .node (place id) root (relabelRegions place regions)

def relabelList (place : OpId → OpId) : List Placed → List Placed
  | [] => []
  | p :: rest => relabel place p :: relabelList place rest

def relabelRegions (place : OpId → OpId) : List (List Placed) → List (List Placed)
  | [] => []
  | region :: rest => relabelList place region :: relabelRegions place rest

end

theorem relabelList_eq_map (ps : List Placed) : relabelList place ps = ps.map (relabel place) := by
  induction ps with
  | nil => rfl
  | cons p rest ih => simp only [relabelList, ih, List.map_cons]

theorem relabel_node (id : OpId) (root : Node) (regions : List (List Placed)) :
    (node id root regions).relabel place =
      .node (place id) root (regions.map (·.map (relabel place))) := by
  have nested : relabelRegions place regions = regions.map (·.map (relabel place)) := by
    induction regions with
    | nil => rfl
    | cons region rest ih => simp only [relabelRegions, relabelList_eq_map, ih, List.map_cons]
  rw [relabel, nested]

theorem id_relabel (p : Placed) : (p.relabel place).id = place p.id := by
  cases p
  rfl

theorem tree_relabel (p : Placed) : (p.relabel place).tree = p.tree := by
  induction p with
  | node id root regions ih =>
    rw [relabel_node, tree_node, tree_node, List.map_map]
    refine congrArg _ (List.map_congr_left fun region hregion => ?_)
    rw [Function.comp_apply, List.map_map]
    exact List.map_congr_left (ih region hregion)

end Placed

def Op.relabel (place : OpId → OpId) (op : Op) : Op :=
  { op with regions := op.regions.map (·.map place) }

namespace Placed

variable {place : OpId → OpId}

theorem entries_relabel (p : Placed) :
    (p.relabel place).entries = p.entries.map fun e => (place e.1, e.2.relabel place) := by
  induction p with
  | node id root regions ih =>
    have roots : (node (place id) root (regions.map (·.map (relabel place)))).op =
        (node id root regions).op.relabel place := by
      simp only [op, Op.relabel, List.map_map, Function.comp_def, id_relabel]
    rw [relabel_node, entries_node, entries_node, List.map_cons, roots, ← List.map_flatten,
      List.flatMap_map, List.map_flatMap]
    refine congrArg _ (List.flatMap_congr fun p hp => ?_)
    obtain ⟨region, hregion, hmem⟩ := List.mem_flatten.mp hp
    exact ih region hregion p hmem

theorem ids_relabel (p : Placed) : (p.relabel place).ids = p.ids.map place := by
  rw [ids, entries_relabel, List.map_map, ids, List.map_map]
  rfl

/-- Sends each id of a list to the one that another list has in its position. -/
def byPosition (ids ids' : List OpId) (id : OpId) : OpId := (ids'[ids.idxOf id]?).getD id

theorem map_byPosition {ids ids' : List OpId} (nodup : ids.Nodup)
    (length : ids.length = ids'.length) : ids.map (byPosition ids ids') = ids' := by
  refine List.ext_getElem (by rw [List.length_map, length]) fun i h h' => ?_
  rw [List.getElem_map]
  simp only [byPosition, nodup.idxOf_getElem, List.getElem?_eq_getElem h', Option.getD_some]

/-- If no slot is used twice, the same trees in any slots are those trees renumbered. -/
theorem exists_relabel {ps qs : List Placed} (same : ps.map tree = qs.map tree)
    (nodup : (ps.flatMap ids).Nodup) : ∃ place, qs = ps.map (relabel place) := by
  have length : (ps.flatMap ids).length = (qs.flatMap ids).length := by
    have sizes : ∀ rs : List Placed,
        (rs.flatMap ids).length = ((rs.map tree).map Tree.size).sum := by
      intro rs
      simp only [List.length_flatMap, length_ids, List.map_map, Function.comp_def]
    rw [sizes, sizes, same]
  refine ⟨byPosition (ps.flatMap ids) (qs.flatMap ids),
    (eq_of_treeList (fun p _ q => eq_of_tree) ?_ ?_).symm⟩
  · rw [List.map_map, ← same]
    exact List.map_congr_left fun p _ => p.tree_relabel
  · rw [List.flatMap_map]
    refine Eq.trans ?_ (map_byPosition nodup length)
    rw [List.map_flatMap]
    exact List.flatMap_congr fun p _ => p.ids_relabel

end Placed

end Linkage
