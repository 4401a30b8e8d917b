import Linkage.Proofs.Cycles
import Linkage.Proofs.Reaching
import Linkage.Proofs.Relabelling
import Linkage.Proofs.Tallies
/-!
Merging units in which operations refer to each other in any way. Taking operations out cuts what
is shared and what runs in circles, so each operation that is reached moves once, at its first
visit; and where the operations form trees to begin with, all that changes are their slots.
-/
namespace Linkage

namespace LinkUnit

def Left (u : LinkUnit) (seen : List OpId) (ops : Slots Op) : Prop :=
  ∀ id : OpId, ops.get? id.index = if id ∈ seen then none else u.ops.get? id.index

/-- Trees were taken out from under some ids in turn. Their operations are those that come to be
seen, as they come, and nothing in them but their regions is other than in the unit. -/
structure Walked (u : LinkUnit) (seen : List OpId) (ops : Slots Op) (ids : List OpId)
    (ps : List Placed) (ops' : Slots Op) : Prop where
  visits : u.Visits seen ids (seen ++ ps.flatMap Placed.ids)
  left : u.Left (seen ++ ps.flatMap Placed.ids) ops'
  nodes : ∀ e ∈ ps.flatMap Placed.entries, ∃ op, u.ops.get? e.1.index = some op ∧
    op.toNode = e.2.toNode
  fewer : ops'.occupied ≤ ops.occupied

variable {u : LinkUnit} {seen ids ids' : List OpId} {ops ops' ops'' : Slots Op}
  {ps ps' : List Placed} {id : OpId}

theorem left_without (left : u.Left seen ops) (id : OpId) :
    u.Left (seen ++ [id]) (ops.without id.index) := by
  intro other
  rw [Slots.get?_without, left other]
  by_cases same : other = id
  · subst same
    simp
  · have differ : other.index ≠ id.index := fun h => same (OpId.index_injective h)
    simp [differ, same]

namespace Walked

theorem done (left : u.Left seen ops) : u.Walked seen ops [] [] ops := by
  refine ⟨?_, ?_, fun _ he => absurd he List.not_mem_nil, Nat.le_refl _⟩
  · simpa using Visits.done seen
  · simpa using left

theorem skip (left : u.Left seen ops) (vacant : ops.get? id.index = none) :
    u.Walked seen ops [id] [] ops := by
  have idle : id ∈ seen ∨ u.ops.get? id.index = none := by
    have now := left id
    rw [vacant] at now
    by_cases known : id ∈ seen
    · exact .inl known
    · exact .inr (by rw [if_neg known] at now; exact now.symm)
  refine ⟨.skip idle ?_, ?_, fun _ he => absurd he List.not_mem_nil, Nat.le_refl _⟩
  · simpa using Visits.done seen
  · simpa using left

theorem append (h : u.Walked seen ops ids ps ops')
    (h' : u.Walked (seen ++ ps.flatMap Placed.ids) ops' ids' ps' ops'') :
    u.Walked seen ops (ids ++ ids') (ps ++ ps') ops'' where
  visits := by
    rw [List.flatMap_append, ← List.append_assoc]
    exact h.visits.append h'.visits
  left := by
    rw [List.flatMap_append, ← List.append_assoc]
    exact h'.left
  nodes := by
    rw [List.flatMap_append]
    exact List.forall_mem_append.mpr ⟨h.nodes, h'.nodes⟩
  fewer := h'.fewer.trans h.fewer

theorem enter {op : Op} {groups : List (List Placed)} (left : u.Left seen ops)
    (held : ops.get? id.index = some op)
    (h : u.Walked (seen ++ [id]) (ops.without id.index) op.regions.flatten groups.flatten ops') :
    u.Walked seen ops [id] [.node id op.toNode groups] ops' := by
  have now := left id
  rw [held] at now
  have fresh : id ∉ seen := fun known => by
    rw [if_pos known] at now
    cases now
  rw [if_neg fresh] at now
  have slots : seen ++ [Placed.node id op.toNode groups].flatMap Placed.ids =
      seen ++ [id] ++ groups.flatten.flatMap Placed.ids := by
    rw [List.flatMap_singleton, Placed.ids_node, List.append_assoc, List.singleton_append]
  refine ⟨?_, ?_, ?_, ?_⟩
  · rw [slots]
    exact .enter fresh now.symm h.visits (.done _)
  · rw [slots]
    exact h.left
  · rw [List.flatMap_singleton, Placed.entries_node]
    exact List.forall_mem_cons.mpr ⟨⟨op, now.symm, rfl⟩, h.nodes⟩
  · have gone := Slots.occupied_without held
    have fewer := h.fewer
    omega

end Walked

def Walks (u : LinkUnit) (bound : Nat) (f : Slots Op → OpId → Option Tree × Slots Op) : Prop :=
  ∀ (seen : List OpId) (ops : Slots Op) (id : OpId), u.Left seen ops → ops.occupied ≤ bound →
    ∃ ps, (f ops id).1.toList = ps.map Placed.tree ∧ u.Walked seen ops [id] ps (f ops id).2

variable {bound : Nat} {f : Slots Op → OpId → Option Tree × Slots Op}

theorem walked_extractEach (each : u.Walks bound f) (ids : List OpId) (left : u.Left seen ops)
    (enough : ops.occupied ≤ bound) :
    ∃ ps, (Slots.extractEach f ops ids).1 = ps.map Placed.tree ∧
      u.Walked seen ops ids ps (Slots.extractEach f ops ids).2 := by
  induction ids generalizing seen ops with
  | nil => exact ⟨[], rfl, .done left⟩
  | cons id rest ih =>
    obtain ⟨ps, trees, walked⟩ := each seen ops id left enough
    obtain ⟨ps', trees', walked'⟩ := ih walked.left (walked.fewer.trans enough)
    rw [Slots.extractEach_cons]
    exact ⟨ps ++ ps', by rw [trees, trees', List.map_append], walked.append walked'⟩

theorem walked_regions (each : u.Walks bound f) (regions : List (List OpId))
    (left : u.Left seen ops) (enough : ops.occupied ≤ bound) :
    ∃ groups : List (List Placed),
      (mapAccum (Slots.extractEach f) ops regions).1 = groups.map (·.map Placed.tree) ∧
      u.Walked seen ops regions.flatten groups.flatten
        (mapAccum (Slots.extractEach f) ops regions).2 := by
  induction regions generalizing seen ops with
  | nil => exact ⟨[], rfl, .done left⟩
  | cons region rest ih =>
    obtain ⟨ps, trees, walked⟩ := walked_extractEach each region left enough
    obtain ⟨groups, trees', walked'⟩ := ih walked.left (walked.fewer.trans enough)
    exact ⟨ps :: groups, by simp only [mapAccum, trees, trees', List.map_cons],
      walked.append walked'⟩

/-- Every operation that is taken out leaves fewer behind, so fuel for all of them is enough. -/
theorem walks_extractWithin (u : LinkUnit) (fuel : Nat) :
    u.Walks fuel (Slots.extractWithin fuel) := by
  induction fuel with
  | zero =>
    intro seen ops id left enough
    refine ⟨[], rfl, .skip left ?_⟩
    cases held : ops.get? id.index with
    | none => rfl
    | some op =>
      have gone := Slots.occupied_without held
      omega
  | succ fuel ih =>
    intro seen ops id left enough
    unfold Slots.extractWithin
    cases held : ops.get? id.index with
    | none => exact ⟨[], rfl, .skip left held⟩
    | some op =>
      have gone := Slots.occupied_without held
      obtain ⟨groups, trees, walked⟩ :=
        walked_regions ih op.regions (left_without left id) (by omega)
      refine ⟨[.node id op.toNode groups], ?_, .enter left held walked⟩
      simp only [trees, Option.toList_some, List.map_singleton, Placed.tree_node]

theorem walks_extract (u : LinkUnit) (bound : Nat) : u.Walks bound Slots.extract :=
  fun seen ops id left _ =>
    u.walks_extractWithin ops.cells.size seen ops id left ops.occupied_le_size

theorem visits_of_each {ps : List Placed} (seen : List OpId)
    (each : ∀ p ∈ ps, ∀ seen : List OpId, (seen ++ p.ids).Nodup →
      u.Visits seen [p.id] (seen ++ p.ids))
    (nodup : (seen ++ ps.flatMap Placed.ids).Nodup) :
    u.Visits seen (ps.map Placed.id) (seen ++ ps.flatMap Placed.ids) := by
  induction ps generalizing seen with
  | nil => simpa using Visits.done seen
  | cons p rest ih =>
    rw [List.flatMap_cons, ← List.append_assoc] at nodup ⊢
    have first := each p List.mem_cons_self seen nodup.of_append_left
    exact first.append (ih _ (fun q hq => each q (List.mem_cons_of_mem p hq)) nodup)

theorem visits_of_holds {p : Placed} (holds : u.ops.Holds p.entries)
    (nodup : (seen ++ p.ids).Nodup) : u.Visits seen [p.id] (seen ++ p.ids) := by
  induction p generalizing seen with
  | node id root regions ih =>
    rw [Placed.entries_node] at holds
    obtain ⟨hroot, hnested⟩ := List.forall_mem_cons.mp holds
    have slots : seen ++ (Placed.node id root regions).ids =
        seen ++ [id] ++ regions.flatten.flatMap Placed.ids := by
      rw [Placed.ids_node, List.append_assoc, List.singleton_append]
    rw [slots] at nodup ⊢
    have fresh : id ∉ seen := fun known =>
      List.disjoint_of_nodup_append nodup.of_append_left known List.mem_cons_self
    refine .enter fresh hroot ?_ (.done _)
    have below := visits_of_each _ (fun p hp seen nodup => by
      obtain ⟨region, hregion, hmem⟩ := List.mem_flatten.mp hp
      exact ih region hregion p hmem (Slots.holds_of_mem hnested hp)
        nodup) nodup
    rwa [List.map_flatten] at below

/-- In a forest the order of the first visits is the pre-order of its trees. -/
theorem Unfolds.visits (h : u.Unfolds ps) : u.Visits [] u.body (ps.flatMap Placed.ids) := by
  have nodup := h.nodup
  rw [List.map_flatMap] at nodup
  rw [← h.body]
  exact visits_of_each [] (fun p hp _ nodup => visits_of_holds (h.holds_of_mem hp) nodup) nodup

theorem exists_walk (u : LinkUnit) :
    ∃ ps : List Placed, u.forest = ps.map Placed.tree ∧
      u.Visits [] u.body (ps.flatMap Placed.ids) ∧
      (∀ e ∈ ps.flatMap Placed.entries, ∃ op, u.ops.get? e.1.index = some op ∧
        op.toNode = e.2.toNode) ∧
      (u.IsForest → u.Unfolds ps) := by
  by_cases forest : u.IsForest
  · obtain ⟨ps, hps⟩ := isForest_iff.mp forest
    exact ⟨ps, forest_eq hps, hps.visits, fun e he => ⟨e.2, hps.holds e he, rfl⟩, fun _ => hps⟩
  · have untouched : u.Left [] u.ops := fun id => by simp
    obtain ⟨ps, trees, walked⟩ := walked_extractEach
      (u.walks_extract u.ops.occupied) u.body untouched (Nat.le_refl _)
    exact ⟨ps, trees, walked.visits, walked.nodes, fun isForest => absurd isForest forest⟩

end LinkUnit

structure Move where
  order : List OpId
  place : OpId → OpId

/-- The operations that a unit reaches move in the order of first visits, each of them once and with
all it says. Those of a forest refer to each other as before. -/
structure Move.Takes (m : Move) (u merged : LinkUnit) : Prop where
  visits : u.Visits [] u.body m.order
  nodup : m.order.Nodup
  reached : ∀ id, id ∈ m.order ↔ ∃ op, u.Reaches id op
  nodes : ∀ id op, u.Reaches id op →
    ∃ op', merged.ops.get? (m.place id).index = some op' ∧ op'.toNode = op.toNode
  regions : u.IsForest → ∀ id op, u.Reaches id op →
    merged.ops.get? (m.place id).index = some (op.relabel m.place)

theorem exists_move (u : LinkUnit) {merged : LinkUnit} {qs : List Placed}
    (trees : qs.map Placed.tree = u.forest) (holds : merged.ops.Holds (qs.flatMap Placed.entries)) :
    ∃ m : Move, m.Takes u merged ∧ qs.flatMap Placed.ids = m.order.map m.place ∧
      (u.IsForest → qs.map Placed.id = u.body.map m.place) := by
  obtain ⟨ps, same, visits, nodes, unfolds⟩ := u.exists_walk
  have nodup := visits.nodup .nil
  obtain ⟨place, rfl⟩ := Placed.exists_relabel (same.symm.trans trees.symm) nodup
  have moved : ∀ e ∈ ps.flatMap Placed.entries,
      merged.ops.get? (place e.1).index = some (e.2.relabel place) := by
    intro e he
    obtain ⟨p, hp, he⟩ := List.mem_flatMap.mp he
    refine holds (place e.1, e.2.relabel place) (List.mem_flatMap.mpr
      ⟨p.relabel place, List.mem_map_of_mem hp, ?_⟩)
    rw [Placed.entries_relabel]
    exact List.mem_map_of_mem he
  refine ⟨⟨ps.flatMap Placed.ids, place⟩, ⟨visits, nodup, fun id => visits.mem_iff, ?_, ?_⟩, ?_, ?_⟩
  · intro id op reached
    have seen := visits.mem_iff.mpr ⟨op, reached⟩
    obtain ⟨p, hp, hid⟩ := List.mem_flatMap.mp seen
    obtain ⟨e, he, rfl⟩ := List.mem_map.mp hid
    have listed : e ∈ ps.flatMap Placed.entries := List.mem_flatMap.mpr ⟨p, hp, he⟩
    obtain ⟨found, held, same⟩ := nodes e listed
    obtain rfl := Option.some.inj (held.symm.trans reached.1)
    exact ⟨_, moved e listed, same.symm⟩
  · intro forest id op reached
    exact moved (id, op) ((unfolds forest).reaches_iff.mp reached)
  · rw [List.flatMap_map, List.map_flatMap]
    exact List.flatMap_congr fun p _ => p.ids_relabel
  · intro forest
    rw [← (unfolds forest).body, List.map_map, List.map_map]
    exact List.map_congr_left fun p _ => p.id_relabel

theorem exists_moves {merged : LinkUnit} (units : List LinkUnit) {qs : List Placed}
    (trees : qs.map Placed.tree = units.flatMap LinkUnit.forest)
    (holds : merged.ops.Holds (qs.flatMap Placed.entries)) :
    ∃ moves : List Move, List.Forall₂ (fun u m => m.Takes u merged) units moves ∧
      qs.flatMap Placed.ids = moves.flatMap (fun m => m.order.map m.place) ∧
      ((∀ u ∈ units, u.IsForest) →
        qs.map Placed.id = (units.zip moves).flatMap fun (u, m) => u.body.map m.place) := by
  induction units generalizing qs with
  | nil =>
    obtain rfl : qs = [] := List.map_eq_nil_iff.mp trees
    exact ⟨[], .nil, rfl, fun _ => rfl⟩
  | cons u rest ih =>
    obtain ⟨part, others, rfl, htrees, htrees'⟩ := List.map_eq_append_iff.mp trees
    rw [List.flatMap_append] at holds
    obtain ⟨hpart, hothers⟩ := Slots.holds_append.mp holds
    obtain ⟨m, takes, slots, roots⟩ := exists_move u htrees hpart
    obtain ⟨moves, each, slots', roots'⟩ := ih htrees' hothers
    refine ⟨m :: moves, .cons takes each, ?_, fun forest => ?_⟩
    · rw [List.flatMap_append, slots, slots', List.flatMap_cons]
    · obtain ⟨first, later⟩ := List.forall_mem_cons.mp forest
      rw [List.map_append, roots first, roots' later, List.zip_cons_cons, List.flatMap_cons]

/-- Whatever the units refer to, with exact counters they are merged into a forest that fills its
slots. What each unit reaches moves into it, unit after unit in the order of first visits, and
nothing else does; forests keep their shape. -/
theorem merge_normalises {units : List LinkUnit} (exact : ∀ u ∈ units, u.ops.Exact) :
    ∃ (merged : LinkUnit) (moves : List Move) (ids : List OpId),
      mergeUnits units = .ok merged ∧
      List.Forall₂ (fun u m => m.Takes u merged) units moves ∧
      merged.preorder = .ok ids ∧ ids.Nodup ∧
      (∀ slot < merged.ops.cells.size, merged.ops.contains slot = true ∧ ⟨slot⟩ ∈ ids) ∧
      ids = moves.flatMap (fun m => m.order.map m.place) ∧
      ((∀ u ∈ units, u.IsForest) →
        merged.body = (units.zip moves).flatMap fun (u, m) => u.body.map m.place) ∧
      merged.ops.Exact := by
  have merges : mergeUnits units = .ok (joined units) :=
    mergeUnits_eq_ok.mpr ⟨fun u hu => LinkUnit.covered_of_exact (exact u hu), rfl⟩
  obtain ⟨qs, trees, unfolds⟩ := joined_unfolds units
  obtain ⟨moves, takes, slots, roots⟩ := exists_moves units trees unfolds.holds
  obtain ⟨ids, reads, nodup, -, full⟩ := joined_full units
  have order : ids = qs.flatMap Placed.ids := by
    have read := Except.ok.inj (reads.symm.trans (LinkUnit.preorder_eq unfolds))
    rw [read, List.map_flatMap]
    rfl
  exact ⟨joined units, moves, ids, merges, takes, reads, nodup, full, order.trans slots,
    fun forest => unfolds.body ▸ roots forest, exact_joined units⟩

/-- Two modules that share an operation, which runs back into the first of them. One id leads
nowhere, the first module is listed twice, and the last operation is not reached. -/
def knotUnit : LinkUnit :=
  muxUnit
    [muxOp (.moduleDef .local ⟨⟨0⟩, []⟩) [] [[⟨2⟩, ⟨9⟩]],
      muxOp (.moduleDef .local ⟨⟨1⟩, []⟩) [] [[⟨2⟩]],
      muxOp (.generic ⟨3⟩) [] [[⟨0⟩]],
      muxOp (.generic ⟨3⟩) [] []]
    [⟨0⟩, ⟨1⟩, ⟨0⟩]

theorem knotUnit_visits : knotUnit.Visits [] knotUnit.body [⟨0⟩, ⟨2⟩, ⟨1⟩] := by
  have shared : knotUnit.Visits [⟨0⟩] [⟨2⟩, ⟨9⟩] [⟨0⟩, ⟨2⟩] :=
    .enter (by decide) rfl (.skip (.inl (by decide)) (.done _)) (.skip (.inr rfl) (.done _))
  have again : knotUnit.Visits [⟨0⟩, ⟨2⟩, ⟨1⟩] [⟨2⟩] [⟨0⟩, ⟨2⟩, ⟨1⟩] :=
    .skip (.inl (by decide)) (.done _)
  exact .enter (by decide) rfl shared
    (.enter (by decide) rfl again (.skip (.inl (by decide)) (.done _)))

/-- Of each of the two copies three operations move. -/
theorem merge_normalises_knot :
    ¬ knotUnit.IsForest ∧ knotUnit.ops.Exact ∧ ∃ (merged : LinkUnit) (m m' : Move),
      mergeUnits [knotUnit, knotUnit] = .ok merged ∧
      m.order = [⟨0⟩, ⟨2⟩, ⟨1⟩] ∧ m'.order = [⟨0⟩, ⟨2⟩, ⟨1⟩] ∧
      merged.preorder = .ok (m.order.map m.place ++ m'.order.map m'.place) := by
  have exact : ∀ u ∈ [knotUnit, knotUnit], u.ops.Exact := by decide
  obtain ⟨merged, moves, ids, merges, takes, reads, -, -, order, -⟩ := merge_normalises exact
  rw [List.forall₂_cons_left_iff] at takes
  obtain ⟨m, rest, first, takes, rfl⟩ := takes
  rw [List.forall₂_cons_left_iff] at takes
  obtain ⟨m', rest, second, takes, rfl⟩ := takes
  cases takes
  refine ⟨by decide, exact _ List.mem_cons_self, merged, m, m', merges,
    first.visits.unique knotUnit_visits, second.visits.unique knotUnit_visits, ?_⟩
  rw [reads, order]
  simp

end Linkage
