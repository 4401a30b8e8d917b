import Linkage.Proofs.Reaching
import Linkage.Proofs.Relabelling
import Mathlib.Data.Finset.Card
/-!
Cutting trees out of a forest. Every operation comes with the line of those it is nested in, and a
cut leaves the operations whose line holds nothing that is dropped, in their order. In a unit that
unfolds into the forest the line holds what the operation stands below, and as many slots fall
vacant as operations are gone.
-/
namespace Linkage

/-- An operation with those it is nested in, the nearest first. -/
structure Line where
  above : List OpId
  id : OpId
  op : Op

namespace Line

def entry (l : Line) : OpId × Op := (l.id, l.op)

/-- The operation is nested in one of some others, or it is one of them. -/
def passes (l : Line) (drop : OpId → Bool) : Bool := (l.id :: l.above).any drop

end Line

def Op.without (op : Op) (drop : OpId → Bool) (edit : Node → Node) : Op :=
  { edit op.toNode with regions := op.regions.map (·.filter (!drop ·)) }

namespace Placed

mutual

def lines (above : List OpId) : Placed → List Line
  | .node id root regions =>
    ⟨above, id, (node id root regions).op⟩ :: linesOfRegions (id :: above) regions

def linesOfList (above : List OpId) : List Placed → List Line
  | [] => []
  | p :: rest => lines above p ++ linesOfList above rest

def linesOfRegions (above : List OpId) : List (List Placed) → List Line
  | [] => []
  | region :: rest => linesOfList above region ++ linesOfRegions above rest

end

mutual

/-- What is left of a tree without the dropped operations and all that is nested in them. -/
def cut (drop : OpId → Bool) (edit : OpId → Node → Node) : Placed → List Placed
  | .node id root regions =>
    if drop id then [] else [.node id (edit id root) (cutRegions drop edit regions)]

def cutList (drop : OpId → Bool) (edit : OpId → Node → Node) : List Placed → List Placed
  | [] => []
  | p :: rest => cut drop edit p ++ cutList drop edit rest

def cutRegions (drop : OpId → Bool) (edit : OpId → Node → Node) :
    List (List Placed) → List (List Placed)
  | [] => []
  | region :: rest => cutList drop edit region :: cutRegions drop edit rest

end

theorem flatInduction {motive : Placed → Prop}
    (node : ∀ id root regions, (∀ q ∈ regions.flatten, motive q) →
      motive (.node id root regions)) (p : Placed) : motive p := by
  induction p with
  | node id root regions ih =>
    refine node id root regions fun q hq => ?_
    obtain ⟨region, hregion, hmem⟩ := List.mem_flatten.mp hq
    exact ih region hregion q hmem

variable {drop : OpId → Bool} {edit : OpId → Node → Node} {above : List OpId}

theorem lines_node (above : List OpId) (id : OpId) (root : Node) (regions : List (List Placed)) :
    (node id root regions).lines above = ⟨above, id, (node id root regions).op⟩ ::
      regions.flatten.flatMap (lines (id :: above)) := by
  have each : ∀ (above : List OpId) (ps : List Placed),
      linesOfList above ps = ps.flatMap (lines above) := by
    intro above ps
    induction ps with
    | nil => rfl
    | cons p rest ih => simp only [linesOfList, ih, List.flatMap_cons]
  have nested : linesOfRegions (id :: above) regions =
      regions.flatten.flatMap (lines (id :: above)) := by
    induction regions with
    | nil => rfl
    | cons region rest ih =>
      simp only [linesOfRegions, each, ih, List.flatten_cons, List.flatMap_append]
  rw [lines, nested]

theorem cut_node (id : OpId) (root : Node) (regions : List (List Placed)) :
    (node id root regions).cut drop edit =
      if drop id then []
      else [.node id (edit id root) (regions.map (·.flatMap (cut drop edit)))] := by
  have each : ∀ ps : List Placed, cutList drop edit ps = ps.flatMap (cut drop edit) := by
    intro ps
    induction ps with
    | nil => rfl
    | cons p rest ih => simp only [cutList, ih, List.flatMap_cons]
  have nested : cutRegions drop edit regions = regions.map (·.flatMap (cut drop edit)) := by
    induction regions with
    | nil => rfl
    | cons region rest ih => simp only [cutRegions, each, ih, List.map_cons]
  rw [cut, nested]

theorem mem_lines (p : Placed) (above : List OpId) : ⟨above, p.id, p.op⟩ ∈ p.lines above := by
  cases p
  rw [lines_node]
  exact List.mem_cons_self

theorem map_entry_lines (p : Placed) (above : List OpId) :
    (p.lines above).map Line.entry = p.entries := by
  induction p using flatInduction generalizing above with
  | node id root regions ih =>
    rw [lines_node, entries_node, List.map_cons, List.map_flatMap]
    exact congrArg _ (List.flatMap_congr fun q hq => ih q hq _)

theorem entry_mem_of_line {p : Placed} {l : Line} (hl : l ∈ p.lines above) : l.entry ∈ p.entries :=
  p.map_entry_lines above ▸ List.mem_map_of_mem hl

theorem id_mem_of_line {p : Placed} {l : Line} (hl : l ∈ p.lines above) : l.id ∈ p.ids :=
  List.mem_map.mpr ⟨_, entry_mem_of_line hl, rfl⟩

theorem above_subset {p : Placed} {l : Line} (hl : l ∈ p.lines above) : above ⊆ l.above := by
  induction p using flatInduction generalizing above with
  | node id root regions ih =>
    rw [lines_node] at hl
    rcases List.mem_cons.mp hl with rfl | hl
    · exact List.Subset.refl _
    · obtain ⟨q, hq, hl⟩ := List.mem_flatMap.mp hl
      exact fun _ h => ih q hq hl (List.mem_cons_of_mem _ h)

theorem id_mem_line {p : Placed} {l : Line} (hl : l ∈ p.lines above) : p.id ∈ l.id :: l.above := by
  obtain ⟨id, root, regions⟩ := p
  rw [lines_node] at hl
  rcases List.mem_cons.mp hl with rfl | hl
  · exact List.mem_cons_self
  · obtain ⟨q, -, hl⟩ := List.mem_flatMap.mp hl
    exact List.mem_cons_of_mem _ (above_subset hl List.mem_cons_self)

theorem exists_child {p : Placed} {l : Line} (hl : l ∈ p.lines above) {child : OpId}
    (inside : child ∈ l.op.regions.flatten) :
    ∃ l' ∈ p.lines above, l'.id = child ∧ l'.above = l.id :: l.above := by
  induction p using flatInduction generalizing above with
  | node id root regions ih =>
    rw [lines_node] at hl ⊢
    rcases List.mem_cons.mp hl with rfl | hl
    · simp only [op, ← List.map_flatten] at inside
      obtain ⟨q, hq, rfl⟩ := List.mem_map.mp inside
      exact ⟨⟨id :: above, q.id, q.op⟩, List.mem_cons_of_mem _
        (List.mem_flatMap.mpr ⟨q, hq, q.mem_lines _⟩), rfl, rfl⟩
    · obtain ⟨q, hq, hl⟩ := List.mem_flatMap.mp hl
      obtain ⟨l', hl', same⟩ := ih q hq hl
      exact ⟨l', List.mem_cons_of_mem _ (List.mem_flatMap.mpr ⟨q, hq, hl'⟩), same⟩

theorem flatten_map_flatMap (f : Placed → List Placed) (regions : List (List Placed)) :
    (regions.map (·.flatMap f)).flatten = regions.flatten.flatMap f := by
  induction regions with
  | nil => rfl
  | cons region rest ih =>
    rw [List.map_cons, List.flatten_cons, ih, List.flatten_cons, List.flatMap_append]

theorem map_id_entries (ps : List Placed) : (ps.flatMap entries).map (·.1) = ps.flatMap ids :=
  List.map_flatMap

def forestLines (ps : List Placed) : List Line := ps.flatMap (lines [])

theorem exists_child_line {ps : List Placed} {l : Line} (hl : l ∈ forestLines ps) {child : OpId}
    (inside : child ∈ l.op.regions.flatten) :
    ∃ l' ∈ forestLines ps, l'.id = child ∧ l'.above = l.id :: l.above := by
  obtain ⟨p, hp, hl⟩ := List.mem_flatMap.mp hl
  obtain ⟨l', hl', same⟩ := exists_child hl inside
  exact ⟨l', List.mem_flatMap.mpr ⟨p, hp, hl'⟩, same⟩

theorem map_entry_forestLines (ps : List Placed) :
    (forestLines ps).map Line.entry = ps.flatMap entries := by
  rw [forestLines, List.map_flatMap]
  exact List.flatMap_congr fun p _ => p.map_entry_lines []

theorem map_id_forestLines (ps : List Placed) :
    (forestLines ps).map Line.id = (ps.flatMap entries).map (·.1) := by
  rw [← map_entry_forestLines, List.map_map]
  rfl

theorem map_id_cut (ps : List Placed) :
    (ps.flatMap (cut drop edit)).map id = (ps.map id).filter (!drop ·) := by
  induction ps with
  | nil => rfl
  | cons p rest ih =>
    obtain ⟨i, root, regions⟩ := p
    rw [List.flatMap_cons, List.map_append, ih, cut_node, List.map_cons, List.filter_cons]
    cases hroot : drop i <;> simp [hroot, Placed.id]

/-- A cut leaves the operations that are not dropped and not nested in one that is. -/
theorem entries_cut (p : Placed) (clear : above.any drop = false) :
    (p.cut drop edit).flatMap entries =
      ((p.lines above).filter (!·.passes drop)).map
        fun l => (l.id, l.op.without drop (edit l.id)) := by
  induction p using flatInduction generalizing above with
  | node id root regions ih =>
    rw [cut_node]
    cases dropped : drop id with
    | true =>
      have none : ((node id root regions).lines above).filter (!·.passes drop) = [] := by
        refine List.filter_eq_nil_iff.mpr fun l hl => ?_
        have passed : l.passes drop = true := List.any_eq_true.mpr ⟨id, id_mem_line hl, dropped⟩
        simp [passed]
      rw [none]
      rfl
    | false =>
      have clear' : (id :: above).any drop = false := by rw [List.any_cons, dropped, clear]; rfl
      have passed : (!(Line.mk above id (node id root regions).op).passes drop) = true := by
        rw [Line.passes, clear']
        rfl
      have regions_eq : (regions.map (·.flatMap (cut drop edit))).map (·.map Placed.id) =
          (regions.map (·.map Placed.id)).map (·.filter (!drop ·)) := by
        rw [List.map_map, List.map_map]
        exact List.map_congr_left fun region _ => map_id_cut region
      have head : (node id (edit id root) (regions.map (·.flatMap (cut drop edit)))).op =
          (node id root regions).op.without drop (edit id) := by
        simp only [op, Op.without, regions_eq]
      have tail : (regions.map (·.flatMap (cut drop edit))).flatten.flatMap entries =
          regions.flatten.flatMap fun q => (q.cut drop edit).flatMap entries := by
        rw [flatten_map_flatMap, List.flatMap_assoc]
      rw [if_neg Bool.false_ne_true, List.flatMap_singleton, entries_node, lines_node,
        List.filter_cons, if_pos passed, List.map_cons, head, tail, List.filter_flatMap,
        List.map_flatMap]
      exact congrArg _ (List.flatMap_congr fun q hq => ih q hq clear')

theorem entries_cutForest (ps : List Placed) (drop : OpId → Bool) (edit : OpId → Node → Node) :
    (ps.flatMap (cut drop edit)).flatMap entries =
      ((forestLines ps).filter (!·.passes drop)).map
        fun l => (l.id, l.op.without drop (edit l.id)) := by
  rw [forestLines, List.flatMap_assoc, List.filter_flatMap, List.map_flatMap]
  exact List.flatMap_congr fun p _ => p.entries_cut rfl

/-- The operations of a tree are in one stretch of the pre-order of any tree that contains it. -/
theorem exists_subtree {p : Placed} {id : OpId} (hid : id ∈ p.ids) :
    ∃ (q : Placed) (front back : List (OpId × Op)), q.id = id ∧
      p.entries = front ++ q.entries ++ back := by
  induction p using flatInduction with
  | node i root regions ih =>
    rw [ids_node] at hid
    rcases List.mem_cons.mp hid with rfl | hid
    · exact ⟨node id root regions, [], [], rfl, by rw [List.append_nil]; rfl⟩
    · obtain ⟨r, hr, hid⟩ := List.mem_flatMap.mp hid
      obtain ⟨q, front, back, same, split⟩ := ih r hr hid
      obtain ⟨before, after, whole⟩ := List.append_of_mem hr
      refine ⟨q, (i, (node i root regions).op) :: (before.flatMap entries ++ front),
        back ++ after.flatMap entries, same, ?_⟩
      rw [entries_node, whole, List.flatMap_append, List.flatMap_cons, split]
      simp only [List.cons_append, List.append_assoc]

end Placed

namespace LinkUnit

variable {u : LinkUnit} {ps : List Placed} {l : Line} {above : List OpId}

theorem below_of_mem_above {p : Placed} (holds : u.ops.Holds p.entries) (hl : l ∈ p.lines above)
    {root : OpId} (hroot : root ∈ l.above) : root ∈ above ∨ root ∈ p.ids ∧ u.Below root l.id := by
  induction p using Placed.flatInduction generalizing above with
  | node id node regions ih =>
    have itself := holds _ (Placed.node id node regions).mem_entries
    rw [Placed.entries_node] at holds
    obtain ⟨-, nested⟩ := List.forall_mem_cons.mp holds
    rw [Placed.lines_node] at hl
    rcases List.mem_cons.mp hl with rfl | hl
    · exact .inl hroot
    · obtain ⟨q, hq, hl⟩ := List.mem_flatMap.mp hl
      have inside := Slots.holds_of_mem nested hq
      rw [Placed.ids_node]
      rcases ih q hq inside hl with hroot | ⟨hroot, below⟩
      · rcases List.mem_cons.mp hroot with rfl | hroot
        · have child : q.id ∈ (Placed.node root node regions).op.regions.flatten := by
            simp only [Placed.op, ← List.map_flatten]
            exact List.mem_map_of_mem hq
          exact .inr ⟨List.mem_cons_self, (Below.root.nested itself child).trans
            ((below_iff inside).mpr (Placed.id_mem_of_line hl))⟩
        · exact .inl hroot
      · exact .inr ⟨List.mem_cons_of_mem _ (List.mem_flatMap.mpr ⟨q, hq, hroot⟩), below⟩

theorem Unfolds.nodup_ids (h : u.Unfolds ps) : (ps.flatMap Placed.ids).Nodup :=
  Placed.map_id_entries ps ▸ h.nodup

theorem Unfolds.line_unique (h : u.Unfolds ps) {l l' : Line} (hl : l ∈ Placed.forestLines ps)
    (hl' : l' ∈ Placed.forestLines ps) (same : l.id = l'.id) : l = l' :=
  List.inj_on_of_nodup_map (Placed.map_id_forestLines ps ▸ h.nodup) hl hl' same

theorem Unfolds.exists_line (h : u.Unfolds ps) {id : OpId} {op : Op} (reached : u.Reaches id op) :
    ∃ above, ⟨above, id, op⟩ ∈ Placed.forestLines ps := by
  have listed := h.reaches_iff.mp reached
  rw [← Placed.map_entry_forestLines] at listed
  obtain ⟨l, hl, same⟩ := List.mem_map.mp listed
  obtain ⟨rfl, rfl⟩ := Prod.mk.inj same
  exact ⟨l.above, hl⟩

theorem Unfolds.reaches_of_line (h : u.Unfolds ps) (hl : l ∈ Placed.forestLines ps) :
    u.Reaches l.id l.op :=
  h.reaches_iff.mpr (Placed.map_entry_forestLines ps ▸ List.mem_map_of_mem hl)

theorem Unfolds.reaches_of_below (h : u.Unfolds ps) {root id : OpId} {op : Op}
    (reached : u.Reaches root op) (below : u.Below root id) : ∃ op', u.Reaches id op' := by
  obtain ⟨-, top, htop, above⟩ := reached
  rw [← h.body] at htop
  obtain ⟨p, hp, rfl⟩ := List.mem_map.mp htop
  obtain ⟨e, he, rfl⟩ := List.mem_map.mp ((below_iff (h.holds_of_mem hp)).mp (above.trans below))
  exact ⟨e.2, h.reaches_iff.mpr (List.mem_flatMap.mpr ⟨p, hp, he⟩)⟩

theorem Unfolds.mem_line_iff (h : u.Unfolds ps) (hl : l ∈ Placed.forestLines ps) {root : OpId} :
    root ∈ l.id :: l.above ↔ (∃ op, u.Reaches root op) ∧ u.Below root l.id := by
  constructor
  · intro hroot
    rcases List.mem_cons.mp hroot with rfl | hroot
    · exact ⟨⟨_, h.reaches_of_line hl⟩, .root⟩
    · obtain ⟨p, hp, hl⟩ := List.mem_flatMap.mp hl
      rcases below_of_mem_above (h.holds_of_mem hp) hl hroot with none | ⟨hroot, below⟩
      · cases none
      · obtain ⟨e, he, rfl⟩ := List.mem_map.mp hroot
        exact ⟨⟨e.2, h.reaches_iff.mpr (List.mem_flatMap.mpr ⟨p, hp, he⟩)⟩, below⟩
  · rintro ⟨⟨_, -, top, htop, above⟩, below⟩
    generalize hid : l.id = id at below
    -- along the way down the line of each operation is that of the one before, and this one
    induction below generalizing l with
    | root => exact hid ▸ List.mem_cons_self
    | @nested parent child op way held inside ih =>
      obtain ⟨outer, hparent⟩ := h.exists_line ⟨held, top, htop, above.trans way⟩
      obtain ⟨l', hl', same, line⟩ := Placed.exists_child_line hparent inside
      obtain rfl := h.line_unique hl hl' (hid.trans same.symm)
      rw [line]
      exact List.mem_cons_of_mem _ (ih hparent rfl)

def Under (u : LinkUnit) (drop : OpId → Bool) (id : OpId) : Prop :=
  ∃ root, drop root = true ∧ (∃ op, u.Reaches root op) ∧ u.Below root id

theorem Unfolds.passes_iff (h : u.Unfolds ps) (hl : l ∈ Placed.forestLines ps)
    {drop : OpId → Bool} : l.passes drop = true ↔ u.Under drop l.id := by
  simp only [Line.passes, List.any_eq_true, h.mem_line_iff hl, Under]
  exact exists_congr fun root => ⟨fun ⟨⟨there, below⟩, dropped⟩ => ⟨dropped, there, below⟩,
    fun ⟨dropped, there, below⟩ => ⟨⟨there, below⟩, dropped⟩⟩

theorem Unfolds.mem_cut_iff (h : u.Unfolds ps) {drop : OpId → Bool} {edit : OpId → Node → Node}
    {e : OpId × Op} :
    e ∈ (ps.flatMap (Placed.cut drop edit)).flatMap Placed.entries ↔
      ∃ op, u.Reaches e.1 op ∧ ¬ u.Under drop e.1 ∧ e.2 = op.without drop (edit e.1) := by
  rw [Placed.entries_cutForest, List.mem_map]
  constructor
  · rintro ⟨l, hl, rfl⟩
    obtain ⟨hl, spared⟩ := List.mem_filter.mp hl
    refine ⟨l.op, h.reaches_of_line hl, fun under => ?_, rfl⟩
    rw [(h.passes_iff hl).mpr under] at spared
    cases spared
  · rintro ⟨op, reached, spared, same⟩
    obtain ⟨above, hl⟩ := h.exists_line reached
    refine ⟨_, List.mem_filter.mpr ⟨hl, ?_⟩, Prod.ext rfl same.symm⟩
    rw [Bool.not_eq_true', ← Bool.not_eq_true, h.passes_iff hl]
    exact spared

theorem cut_within (ps : List Placed) (drop : OpId → Bool) (edit : OpId → Node → Node) :
    (((ps.flatMap (Placed.cut drop edit)).flatMap Placed.entries).map (·.1)).Sublist
      ((ps.flatMap Placed.entries).map (·.1)) := by
  rw [Placed.entries_cutForest, List.map_map, ← Placed.map_id_forestLines]
  exact List.Sublist.map _ List.filter_sublist

end LinkUnit

namespace Slots

variable {α : Type}

def inUse (s : Slots α) : Finset Nat := ((List.range s.cells.size).filter s.contains).toFinset

theorem mem_inUse {s : Slots α} {slot : Nat} : slot ∈ s.inUse ↔ s.contains slot = true := by
  rw [inUse, List.mem_toFinset, List.mem_filter, List.mem_range, and_iff_right_iff_imp]
  intro used
  obtain ⟨a, ha⟩ := contains_iff.mp used
  exact lt_size_of_get? ha

theorem card_inUse (s : Slots α) : s.inUse.card = s.occupied := by
  have cells : s.cells.toList = (List.range s.cells.size).map s.get? := by
    refine List.ext_getElem (by simp) fun i h h' => ?_
    have inside : i < s.cells.size := by simpa using h
    simp [get?, inside]
  rw [inUse, List.toFinset_card_of_nodup (List.nodup_range.filter _), occupied, values,
    List.length_filterMap_eq_countP, cells, List.countP_map, List.countP_eq_length_filter]
  rfl

variable {ops ops' : Slots Op} {before after es : List (OpId × Op)}

def slotsOf (es : List (OpId × Op)) : Finset Nat := (es.map (·.1.index)).toFinset

theorem mem_slotsOf {slot : Nat} : slot ∈ slotsOf es ↔ ⟨slot⟩ ∈ es.map (·.1) := by
  simp only [slotsOf, List.mem_toFinset, List.mem_map]
  exact exists_congr fun e => and_congr_right fun _ =>
    ⟨fun h => OpId.index_injective h, fun h => congrArg OpId.index h⟩

theorem card_slotsOf (nodup : (es.map (·.1)).Nodup) : (slotsOf es).card = es.length := by
  have distinct : (es.map (·.1.index)).Nodup := by
    have slots := List.Nodup.map OpId.index_injective nodup
    rwa [List.map_map] at slots
  rw [slotsOf, List.toFinset_card_of_nodup distinct, List.length_map]

theorem Holds.slotsOf_subset (holds : ops.Holds es) : slotsOf es ⊆ ops.inUse := fun slot hslot => by
  obtain ⟨e, he, same⟩ := List.mem_map.mp (mem_slotsOf.mp hslot)
  have held := holds e he
  rw [same] at held
  exact mem_inUse.mpr (contains_iff.mpr ⟨e.2, held⟩)

theorem Becomes.occupied_eq (h : ops.Becomes before after ops') (holds : ops.Holds before)
    (nodup : (before.map (·.1)).Nodup) :
    ops'.occupied + before.length = ops.occupied + after.length := by
  have rest : ops'.inUse \ slotsOf after = ops.inUse \ slotsOf before := by
    ext slot
    simp only [Finset.mem_sdiff, mem_inUse, mem_slotsOf]
    by_cases touched : (⟨slot⟩ : OpId) ∈ before.map (·.1)
    · simp only [touched, not_true, and_false, iff_false, not_and, not_not]
      intro used
      by_contra gone
      have vacant := h.vacant ⟨slot⟩ touched gone
      simp [contains, vacant] at used
    · have gone : (⟨slot⟩ : OpId) ∉ after.map (·.1) := fun hmem => touched (h.within.subset hmem)
      have same := h.outside ⟨slot⟩ touched
      simp [contains, same, touched, gone]
  have total := Finset.card_sdiff_add_card_eq_card holds.slotsOf_subset
  have total' := Finset.card_sdiff_add_card_eq_card h.holds.slotsOf_subset
  rw [card_inUse, card_slotsOf nodup] at total
  rw [card_inUse, card_slotsOf (nodup.sublist h.within), rest] at total'
  omega

end Slots

end Linkage
