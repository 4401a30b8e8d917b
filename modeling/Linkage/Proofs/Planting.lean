import Linkage.Link.Run
import Linkage.Proofs.Uprooting
/-!
Putting trees into a unit. The operations of a tree take the next slots, so nothing that stands is
touched and no slot is used twice; and a merged unit is a forest, of the trees of all the units in
order, whatever the units were.
-/
namespace Linkage

namespace Tree

@[induction_eliminator]
theorem induction {motive : Tree → Prop}
    (node : ∀ root regions, (∀ region ∈ regions, ∀ t ∈ region, motive t) →
      motive (.node root regions)) : ∀ t, motive t
  | .node root regions => node root regions fun _ _ t _ => induction node t
decreasing_by
  have region := List.sizeOf_lt_of_mem ‹_ ∈ regions›
  have tree := List.sizeOf_lt_of_mem ‹t ∈ _›
  simp only [Tree.node.sizeOf_spec]
  omega

end Tree

namespace Slots

/-- Trees were put into the slots that follow, and fill them. -/
structure Grew (ops : Slots Op) (ps : List Placed) (ops' : Slots Op) : Prop where
  size : ops'.cells.size = ops.cells.size + (ps.flatMap Placed.entries).length
  old : ∀ slot < ops.cells.size, ops'.get? slot = ops.get? slot
  holds : ops'.Holds (ps.flatMap Placed.entries)
  fresh : ∀ e ∈ ps.flatMap Placed.entries, ops.cells.size ≤ e.1.index
  nodup : ((ps.flatMap Placed.entries).map (·.1)).Nodup

variable {ops ops' ops'' : Slots Op} {ps qs : List Placed}

theorem Grew.refl (ops : Slots Op) : ops.Grew [] ops :=
  ⟨rfl, fun _ _ => rfl, fun _ he => absurd he List.not_mem_nil,
    fun _ he => absurd he List.not_mem_nil, .nil⟩

theorem Grew.keeps (h : ops.Grew ps ops') {es : List (OpId × Op)} (holds : ops.Holds es) :
    ops'.Holds es := fun e he => by
  rw [h.old _ (lt_size_of_get? (holds e he))]
  exact holds e he

theorem Grew.disjoint (h : ops.Grew ps ops') {es : List (OpId × Op)} (holds : ops.Holds es) :
    (es.map (·.1)).Disjoint ((ps.flatMap Placed.entries).map (·.1)) := by
  intro id hid hid'
  obtain ⟨e, he, rfl⟩ := List.mem_map.mp hid
  obtain ⟨e', he', heq⟩ := List.mem_map.mp hid'
  have below := lt_size_of_get? (holds e he)
  have above := h.fresh e' he'
  rw [heq] at above
  exact absurd below (Nat.not_lt_of_le above)

theorem Grew.append (h : ops.Grew ps ops') (h' : ops'.Grew qs ops'') :
    ops.Grew (ps ++ qs) ops'' where
  size := by
    rw [h'.size, h.size, List.flatMap_append, List.length_append, Nat.add_assoc]
  old slot hslot := by
    have hslot' : slot < ops'.cells.size := by rw [h.size]; omega
    rw [h'.old slot hslot', h.old slot hslot]
  holds := by
    rw [List.flatMap_append]
    exact Slots.holds_append.mpr ⟨h'.keeps h.holds, h'.holds⟩
  fresh e he := by
    rw [List.flatMap_append, List.mem_append] at he
    rcases he with he | he
    · exact h.fresh e he
    · have := h'.fresh e he
      have := h.size
      omega
  nodup := by
    rw [List.flatMap_append, List.map_append]
    exact h.nodup.append h'.nodup (h'.disjoint h.holds)

theorem Grew.alloc {groups : List (List Placed)} (h : ops.Grew groups.flatten ops') (root : Node) :
    ops.Grew [.node ⟨ops'.cells.size⟩ root groups]
      (ops'.alloc (Placed.node ⟨ops'.cells.size⟩ root groups).op).2 := by
  have entries : [Placed.node ⟨ops'.cells.size⟩ root groups].flatMap Placed.entries =
      (⟨ops'.cells.size⟩, (Placed.node ⟨ops'.cells.size⟩ root groups).op) ::
        groups.flatten.flatMap Placed.entries := by
    rw [List.flatMap_singleton, Placed.entries_node]
  have kept : ∀ slot < ops'.cells.size,
      (ops'.alloc (Placed.node ⟨ops'.cells.size⟩ root groups).op).2.get? slot = ops'.get? slot :=
    fun slot hslot => by rw [get?_alloc, if_neg (Nat.ne_of_lt hslot)]
  refine ⟨?_, fun slot hslot => ?_, ?_, ?_, ?_⟩
  · rw [entries, List.length_cons, Slots.alloc, Array.size_push, h.size, Nat.add_assoc]
  · have hslot' : slot < ops'.cells.size := by rw [h.size]; omega
    rw [kept slot hslot', h.old slot hslot]
  · rw [entries]
    refine List.forall_mem_cons.mpr ⟨?_, fun e he => ?_⟩
    · rw [get?_alloc, if_pos rfl]
    · rw [kept _ (lt_size_of_get? (h.holds e he))]
      exact h.holds e he
  · rw [entries]
    refine List.forall_mem_cons.mpr ⟨?_, h.fresh⟩
    rw [h.size]
    exact Nat.le_add_right _ _
  · rw [entries, List.map_cons, List.nodup_cons]
    refine ⟨fun hmem => ?_, h.nodup⟩
    obtain ⟨e, he, heq⟩ := List.mem_map.mp hmem
    have below := lt_size_of_get? (h.holds e he)
    rw [heq] at below
    exact Nat.lt_irrefl _ below

end Slots

namespace Tree

def Plants (t : Tree) : Prop :=
  ∀ ops : Slots Op, ∃ p : Placed, p.tree = t ∧ (t.plant ops).1 = p.id ∧ ops.Grew [p] (t.plant ops).2

theorem plantList_eq {ts : List Tree} (each : ∀ t ∈ ts, Plants t) (ops : Slots Op) :
    ∃ ps : List Placed, ps.map Placed.tree = ts ∧ (plantList ts ops).1 = ps.map Placed.id ∧
      ops.Grew ps (plantList ts ops).2 := by
  induction ts generalizing ops with
  | nil => exact ⟨[], rfl, rfl, .refl ops⟩
  | cons t rest ih =>
    obtain ⟨p, rfl, hid, hgrew⟩ := each t List.mem_cons_self ops
    obtain ⟨ps, htrees, hids, hgrew'⟩ :=
      ih (fun t ht => each t (List.mem_cons_of_mem _ ht)) (p.tree.plant ops).2
    refine ⟨p :: ps, by rw [List.map_cons, htrees], ?_, hgrew.append hgrew'⟩
    rw [plantList, List.map_cons, ← hid, ← hids]

theorem plantRegions_eq {regions : List (List Tree)}
    (each : ∀ region ∈ regions, ∀ t ∈ region, Plants t) (ops : Slots Op) :
    ∃ groups : List (List Placed), groups.map (·.map Placed.tree) = regions ∧
      (plantRegions regions ops).1 = groups.map (·.map Placed.id) ∧
      ops.Grew groups.flatten (plantRegions regions ops).2 := by
  induction regions generalizing ops with
  | nil => exact ⟨[], rfl, rfl, .refl ops⟩
  | cons region rest ih =>
    obtain ⟨ps, htrees, hids, hgrew⟩ := plantList_eq (each region List.mem_cons_self) ops
    obtain ⟨groups, htrees', hids', hgrew'⟩ :=
      ih (fun r hr => each r (List.mem_cons_of_mem _ hr)) (plantList region ops).2
    refine ⟨ps :: groups, by rw [List.map_cons, htrees, htrees'], ?_, hgrew.append hgrew'⟩
    rw [plantRegions, List.map_cons, ← hids, ← hids']

theorem plants (t : Tree) : Plants t := by
  induction t with
  | node root regions ih =>
    intro ops
    obtain ⟨groups, htrees, hids, hgrew⟩ := plantRegions_eq ih ops
    refine ⟨.node ⟨(plantRegions regions ops).2.cells.size⟩ root groups, ?_, rfl, ?_⟩
    · rw [Placed.tree_node, htrees]
    · have planted := hgrew.alloc root
      simp only [plant, hids]
      exact planted

theorem plantList_append (ts ts' : List Tree) (ops : Slots Op) :
    plantList (ts ++ ts') ops =
      ((plantList ts ops).1 ++ (plantList ts' (plantList ts ops).2).1,
        (plantList ts' (plantList ts ops).2).2) := by
  induction ts generalizing ops with
  | nil => rfl
  | cons t rest ih => simp only [List.cons_append, plantList, ih]

end Tree

namespace LinkUnit

theorem graft_unfolds {u : LinkUnit} {ps : List Placed} (h : u.Unfolds ps) (trees : List Tree) :
    ∃ qs : List Placed, qs.map Placed.tree = trees ∧ (u.graft trees).Unfolds (ps ++ qs) := by
  obtain ⟨qs, htrees, hids, hgrew⟩ :=
    Tree.plantList_eq (fun t (_ : t ∈ trees) => t.plants) u.ops
  refine ⟨qs, htrees, ?_, ?_, ?_⟩
  · rw [List.map_append, h.body, ← hids]
    rfl
  · rw [List.flatMap_append]
    exact Slots.holds_append.mpr ⟨hgrew.keeps h.holds, hgrew.holds⟩
  · rw [List.flatMap_append, List.map_append]
    exact h.nodup.append hgrew.nodup (hgrew.disjoint h.holds)

theorem graft_graft (u : LinkUnit) (ts ts' : List Tree) :
    (u.graft ts).graft ts' = u.graft (ts ++ ts') := by
  simp only [graft, Tree.plantList_append, List.append_assoc]

theorem graft_nil (u : LinkUnit) : u.graft [] = u := by
  simp only [graft, Tree.plantList, List.append_nil]

end LinkUnit

/-- A unit with the trees of all units, in order. -/
def joined (units : List LinkUnit) : LinkUnit :=
  (LinkUnit.new ⟨0⟩ none .dummy).graft (units.flatMap LinkUnit.forest)

/-- Units are merged into the trees of all of them, if each counts as many operations as it has. -/
theorem mergeUnits_eq (units : List LinkUnit) :
    mergeUnits units = if ∀ u ∈ units, u.Covered then .ok (joined units)
      else .error .countUnderflow := by
  have spliced : ∀ (rest : List LinkUnit) (u : LinkUnit),
      rest.foldlM LinkUnit.splice u = if ∀ other ∈ rest, other.Covered then
        .ok (u.graft (rest.flatMap LinkUnit.forest)) else .error .countUnderflow := by
    intro rest
    induction rest with
    | nil =>
      intro u
      rw [if_pos fun _ h => absurd h List.not_mem_nil, List.flatMap_nil, u.graft_nil]
      rfl
    | cons other rest ih =>
      intro u
      rw [List.foldlM_cons, u.splice_eq]
      by_cases covered : other.Covered
      · rw [if_pos covered, ok_bind, ih, u.graft_graft, List.flatMap_cons]
        simp only [List.forall_mem_cons, covered, true_and]
      · rw [if_neg covered, if_neg fun all => covered (all other List.mem_cons_self)]
        rfl
  exact spliced units _

theorem mergeUnits_eq_ok {units : List LinkUnit} {merged : LinkUnit} :
    mergeUnits units = .ok merged ↔ (∀ u ∈ units, u.Covered) ∧ merged = joined units := by
  rw [mergeUnits_eq]
  by_cases covered : ∀ u ∈ units, u.Covered
  · rw [if_pos covered, and_iff_right covered, Except.ok.injEq, eq_comm]
  · rw [if_neg covered, iff_false_right fun h => covered h.1]
    exact nofun

theorem joined_unfolds (units : List LinkUnit) :
    ∃ ps : List Placed, ps.map Placed.tree = units.flatMap LinkUnit.forest ∧
      (joined units).Unfolds ps := by
  have empty : (LinkUnit.new ⟨0⟩ none .dummy).Unfolds [] :=
    ⟨rfl, fun _ he => absurd he List.not_mem_nil, .nil⟩
  exact LinkUnit.graft_unfolds empty _

end Linkage
