import Linkage.Proofs.Extraction
import Linkage.Proofs.Placed
/-!
Taking operations out. What a step does to the slots of one tree it does without touching any
other slot, so steps at separate trees add up; and taking out the trees of a forest one after the
other yields every one of them whole.
-/
namespace Linkage

theorem Placed.nodup_ids_of_mem {p : Placed} {ps : List Placed}
    (nodup : ((ps.flatMap entries).map (·.1)).Nodup) (h : p ∈ ps) : p.ids.Nodup := by
  refine nodup.sublist (List.Sublist.map _ ?_)
  rw [List.flatMap_def]
  exact List.sublist_flatten_of_mem (List.mem_map_of_mem h)

namespace Slots

/-- The operations at some slots were turned into others, which stand in some of the same slots
in the same order. The rest of these slots is vacant, and all other slots are as they were. -/
structure Becomes (ops : Slots Op) (before after : List (OpId × Op)) (ops' : Slots Op) : Prop where
  size : ops'.cells.size = ops.cells.size
  outside : ∀ id, id ∉ before.map (·.1) → ops'.get? id.index = ops.get? id.index
  holds : ops'.Holds after
  vacant : ∀ id ∈ before.map (·.1), id ∉ after.map (·.1) → ops'.get? id.index = none
  within : (after.map (·.1)).Sublist (before.map (·.1))

variable {ops ops' ops'' : Slots Op} {before after before' after' es : List (OpId × Op)}

theorem Becomes.refl (ops : Slots Op) : ops.Becomes [] [] ops :=
  ⟨rfl, fun _ _ => rfl, fun _ he => absurd he List.not_mem_nil,
    fun _ hid => absurd hid List.not_mem_nil, .slnil⟩

theorem Becomes.keeps (h : ops.Becomes before after ops') (holds : ops.Holds es)
    (apart : (before.map (·.1)).Disjoint (es.map (·.1))) : ops'.Holds es := by
  intro e he
  rw [h.outside e.1 fun hmem => apart hmem (List.mem_map_of_mem he)]
  exact holds e he

theorem Becomes.append (h : ops.Becomes before after ops')
    (h' : ops'.Becomes before' after' ops'')
    (apart : (before.map (·.1)).Disjoint (before'.map (·.1))) :
    ops.Becomes (before ++ before') (after ++ after') ops'' where
  size := h'.size.trans h.size
  outside id hid := by
    rw [List.map_append, List.mem_append, not_or] at hid
    rw [h'.outside id hid.2, h.outside id hid.1]
  holds := by
    refine Slots.holds_append.mpr ⟨h'.keeps h.holds ?_, h'.holds⟩
    exact fun id hid hid' => apart (h.within.subset hid') hid
  vacant id hid hgone := by
    rw [List.map_append, List.mem_append] at hid
    rw [List.map_append, List.mem_append, not_or] at hgone
    by_cases hlater : id ∈ before'.map (·.1)
    · exact h'.vacant id hlater hgone.2
    · rw [h'.outside id hlater]
      exact h.vacant id (hid.resolve_right hlater) hgone.1
  within := by
    rw [List.map_append, List.map_append]
    exact h.within.append h'.within

theorem Becomes.get?_eq (h : ops.Becomes es es ops') (holds : ops.Holds es) (slot : Nat) :
    ops'.get? slot = ops.get? slot := by
  by_cases reached : (⟨slot⟩ : OpId) ∈ es.map (·.1)
  · obtain ⟨e, he, same⟩ := List.mem_map.mp reached
    have before := holds e he
    have after := h.holds e he
    rw [same] at before after
    exact after.trans before.symm
  · exact h.outside ⟨slot⟩ reached

theorem Becomes.recount (h : ops.Becomes before after ops') (live : Nat) :
    ops.Becomes before after (ops'.recount live) :=
  ⟨h.size, h.outside, h.holds, h.vacant, h.within⟩

theorem becomes_without (ops : Slots Op) (id : OpId) (op : Op) :
    ops.Becomes [(id, op)] [] (ops.without id.index) := by
  refine ⟨size_without ops id.index, fun other hother => ?_, fun _ he => absurd he List.not_mem_nil,
    fun other hother _ => ?_, List.nil_sublist _⟩
  · have hne : other.index ≠ id.index := fun heq =>
      hother (List.mem_singleton.mpr (OpId.index_injective heq))
    rw [get?_without, if_neg hne]
  · rw [List.map_singleton, List.mem_singleton] at hother
    rw [get?_without, if_pos (congrArg OpId.index hother)]

section

variable {f : Slots Op → OpId → Option Tree × Slots Op}

def Extracts (f : Slots Op → OpId → Option Tree × Slots Op) (p : Placed) : Prop :=
  ∀ ops : Slots Op, ops.Holds p.entries →
    ∃ ops', f ops p.id = (some p.tree, ops') ∧ ops.Becomes p.entries [] ops'

theorem extractEach_eq {ps : List Placed} (each : ∀ p ∈ ps, Extracts f p)
    (holds : ops.Holds (ps.flatMap Placed.entries))
    (nodup : ((ps.flatMap Placed.entries).map (·.1)).Nodup) :
    ∃ ops', extractEach f ops (ps.map Placed.id) = (ps.map Placed.tree, ops') ∧
      ops.Becomes (ps.flatMap Placed.entries) [] ops' := by
  induction ps generalizing ops with
  | nil => exact ⟨ops, rfl, .refl ops⟩
  | cons p rest ih =>
    rw [List.flatMap_cons] at holds nodup ⊢
    rw [List.map_append] at nodup
    have apart := List.disjoint_of_nodup_append nodup
    obtain ⟨hp, hrest⟩ := Slots.holds_append.mp holds
    obtain ⟨ops₁, hfirst, hbecomes⟩ := each p List.mem_cons_self ops hp
    obtain ⟨ops₂, hothers, hbecomes'⟩ :=
      ih (fun q hq => each q (List.mem_cons_of_mem p hq)) (hbecomes.keeps hrest apart)
        nodup.of_append_right
    refine ⟨ops₂, ?_, hbecomes.append hbecomes' apart⟩
    simp only [List.map_cons, extractEach_cons, hfirst, hothers, Option.toList_some,
      List.singleton_append]

theorem mapAccum_extractEach_eq {regions : List (List Placed)}
    (each : ∀ region ∈ regions, ∀ p ∈ region, Extracts f p)
    (holds : ops.Holds (regions.flatten.flatMap Placed.entries))
    (nodup : ((regions.flatten.flatMap Placed.entries).map (·.1)).Nodup) :
    ∃ ops', mapAccum (extractEach f) ops (regions.map (·.map Placed.id)) =
        (regions.map (·.map Placed.tree), ops') ∧
      ops.Becomes (regions.flatten.flatMap Placed.entries) [] ops' := by
  induction regions generalizing ops with
  | nil => exact ⟨ops, rfl, .refl ops⟩
  | cons region rest ih =>
    rw [List.flatten_cons, List.flatMap_append] at holds nodup ⊢
    rw [List.map_append] at nodup
    have apart := List.disjoint_of_nodup_append nodup
    obtain ⟨hregion, hrest⟩ := Slots.holds_append.mp holds
    obtain ⟨ops₁, hfirst, hbecomes⟩ :=
      extractEach_eq (each region List.mem_cons_self) hregion nodup.of_append_left
    obtain ⟨ops₂, hothers, hbecomes'⟩ :=
      ih (fun r hr => each r (List.mem_cons_of_mem region hr)) (hbecomes.keeps hrest apart)
        nodup.of_append_right
    refine ⟨ops₂, ?_, hbecomes.append hbecomes' apart⟩
    simp only [List.map_cons, mapAccum, hfirst, hothers]

end

theorem extractWithin_eq {p : Placed} (nodup : p.ids.Nodup) {fuel : Nat}
    (enough : p.entries.length ≤ fuel) : Extracts (extractWithin fuel) p := by
  induction p generalizing fuel with
  | node id root regions ih =>
    intro ops holds
    obtain ⟨fresh, nodup⟩ := Placed.nodup_ids_node.mp nodup
    rw [Placed.entries_node] at holds enough ⊢
    obtain ⟨more, rfl⟩ : ∃ more, fuel = more + 1 :=
      ⟨fuel - 1, by simp only [List.length_cons] at enough; omega⟩
    obtain ⟨hroot, hnested⟩ := List.forall_mem_cons.mp holds
    have hbecomes := becomes_without ops id (Placed.node id root regions).op
    have apart := List.singleton_disjoint.mpr fresh
    have each : ∀ region ∈ regions, ∀ p ∈ region, Extracts (extractWithin more) p := by
      intro region hregion p hp
      have hmem : p ∈ regions.flatten := List.mem_flatten.mpr ⟨region, hregion, hp⟩
      refine ih region hregion p hp ?_ ?_
      · exact Placed.nodup_ids_of_mem nodup hmem
      · exact Nat.le_trans (Placed.length_entries_le hmem) (Nat.le_of_succ_le_succ enough)
    obtain ⟨ops₂, htrees, hbecomes'⟩ :=
      mapAccum_extractEach_eq each (hbecomes.keeps hnested apart) nodup
    refine ⟨ops₂, ?_, hbecomes.append hbecomes' apart⟩
    rw [extractWithin, Placed.id, hroot, Placed.tree_node]
    simp only [Placed.op, htrees]

theorem extract_eq {p : Placed} (nodup : p.ids.Nodup) : Extracts extract p := fun ops holds =>
  extractWithin_eq nodup (holds.length_le nodup) ops holds

end Slots

namespace Placed

theorem size_tree (p : Placed) : p.tree.size = p.entries.length := by
  induction p with
  | node id root regions ih =>
    have inRegion : ∀ region ∈ regions,
        Tree.sizeOfList (region.map tree) = (region.flatMap entries).length := by
      intro region hregion
      have each := ih region hregion
      clear ih hregion
      induction region with
      | nil => rfl
      | cons p rest ih =>
        simp only [List.map_cons, Tree.sizeOfList, List.flatMap_cons, List.length_append,
          each p List.mem_cons_self, ih fun q hq => each q (List.mem_cons_of_mem p hq)]
    have inRegions : Tree.sizeOfRegions (regions.map (·.map tree)) =
        (regions.flatten.flatMap entries).length := by
      clear ih
      induction regions with
      | nil => rfl
      | cons region rest ih =>
        simp only [List.map_cons, Tree.sizeOfRegions, List.flatten_cons, List.flatMap_append,
          List.length_append, inRegion region List.mem_cons_self,
          ih fun r hr => inRegion r (List.mem_cons_of_mem region hr)]
    rw [tree_node, entries_node, Tree.size, inRegions, List.length_cons, Nat.add_comm]

theorem sizeOfList_tree (ps : List Placed) :
    Tree.sizeOfList (ps.map tree) = (ps.flatMap entries).length := by
  induction ps with
  | nil => rfl
  | cons p rest ih =>
    simp only [List.map_cons, Tree.sizeOfList, List.flatMap_cons, List.length_append, ih, size_tree]

end Placed

def Slots.RunsOut {α : Type} (s : Slots α) (gone : Nat) (fault : Fault) : Prop :=
  fault = .countUnderflow ∧ s.live < gone

/-- What pruning a tree does to its slots and to the counter. -/
theorem Slots.prune_ends {ops : Slots Op} {p : Placed} (holds : ops.Holds p.entries)
    (nodup : p.ids.Nodup) :
    Ends (fun out => out.1 = p.entries.length ∧ ops.Becomes p.entries [] out.2 ∧
      out.2.live + p.entries.length = ops.live) (ops.RunsOut p.entries.length)
      (ops.prune p.id) := by
  obtain ⟨ops', read, becomes⟩ := extract_eq nodup ops holds
  have sized := size_extract ops p.id
  rw [prune_eq, read]
  rw [read] at sized
  simp only [Option.toList_some, Tree.sizeOfList, Placed.size_tree, Nat.add_zero] at sized ⊢
  rw [settle_eq sized]
  by_cases enough : p.entries.length ≤ ops.live
  · rw [if_pos enough]
    exact ⟨rfl, becomes.recount _, Nat.sub_add_cancel enough⟩
  · rw [if_neg enough]
    exact ⟨rfl, Nat.lt_of_not_le enough⟩

/-- The trees at top level are the trees that the unit unfolds into. -/
theorem LinkUnit.forest_eq {u : LinkUnit} {ps : List Placed} (h : u.Unfolds ps) :
    u.forest = ps.map Placed.tree := by
  obtain ⟨ops', heq, _⟩ := Slots.extractEach_eq
    (fun p hp => Slots.extract_eq (Placed.nodup_ids_of_mem h.nodup hp)) h.holds h.nodup
  rw [forest, ← h.body, heq]

theorem LinkUnit.covered_iff {u : LinkUnit} {ps : List Placed} (h : u.Unfolds ps) :
    u.Covered ↔ (ps.flatMap Placed.entries).length ≤ u.ops.live := by
  rw [Covered, forest_eq h, Placed.sizeOfList_tree]

end Linkage
