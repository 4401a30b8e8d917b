import Linkage.Proofs.Sequence
import Linkage.Unit.Tree
import Linkage.Unit.Walk
import Mathlib.Data.List.Nodup
import Mathlib.Data.List.Perm.Subperm
/-!
Units as forests. The operations of a unit refer to each other by slot, and whether they form
trees shows only on going through them: a unit is a forest if its pre-order meets no vacant slot
and no operation twice. Then it unfolds into trees whose operations know their slots, and what
goes through the unit by slots can be said of the trees.
-/
namespace Linkage

/-- A tree of operations with the slot of each. -/
inductive Placed where
  | node (id : OpId) (root : Node) (regions : List (List Placed))

namespace Placed

@[induction_eliminator]
theorem induction {motive : Placed → Prop}
    (node : ∀ id root regions, (∀ region ∈ regions, ∀ p ∈ region, motive p) →
      motive (.node id root regions)) : ∀ p, motive p
  | .node id root regions => node id root regions fun _ _ p _ => induction node p
decreasing_by
  have region := List.sizeOf_lt_of_mem ‹_ ∈ regions›
  have tree := List.sizeOf_lt_of_mem ‹p ∈ _›
  simp only [Placed.node.sizeOf_spec]
  omega

def id : Placed → OpId
  | .node id _ _ => id

def op : Placed → Op
  | .node _ root regions => { root with regions := regions.map (·.map id) }

mutual

def entries : Placed → List (OpId × Op)
  | .node id root regions =>
    (id, (node id root regions).op) :: entriesOfRegions regions

def entriesOfList : List Placed → List (OpId × Op)
  | [] => []
  | p :: rest => entries p ++ entriesOfList rest

def entriesOfRegions : List (List Placed) → List (OpId × Op)
  | [] => []
  | region :: rest => entriesOfList region ++ entriesOfRegions rest

end

mutual

def tree : Placed → Tree
  | .node _ root regions => .node root (treesOfRegions regions)

def treesOfList : List Placed → List Tree
  | [] => []
  | p :: rest => tree p :: treesOfList rest

def treesOfRegions : List (List Placed) → List (List Tree)
  | [] => []
  | region :: rest => treesOfList region :: treesOfRegions rest

end

def ids (p : Placed) : List OpId := p.entries.map (·.1)

theorem entriesOfList_eq_flatMap (ps : List Placed) : entriesOfList ps = ps.flatMap entries := by
  induction ps with
  | nil => rfl
  | cons p rest ih => simp only [entriesOfList, ih, List.flatMap_cons]

theorem treesOfList_eq_map (ps : List Placed) : treesOfList ps = ps.map tree := by
  induction ps with
  | nil => rfl
  | cons p rest ih => simp only [treesOfList, ih, List.map_cons]

theorem entries_node (id : OpId) (root : Node) (regions : List (List Placed)) :
    (node id root regions).entries =
      (id, (node id root regions).op) :: regions.flatten.flatMap entries := by
  have nested : entriesOfRegions regions = regions.flatten.flatMap entries := by
    induction regions with
    | nil => rfl
    | cons region rest ih =>
      simp only [entriesOfRegions, entriesOfList_eq_flatMap, ih, List.flatten_cons,
        List.flatMap_append]
  rw [entries, nested]

theorem tree_node (id : OpId) (root : Node) (regions : List (List Placed)) :
    (node id root regions).tree = .node root (regions.map (·.map tree)) := by
  have nested : treesOfRegions regions = regions.map (·.map tree) := by
    induction regions with
    | nil => rfl
    | cons region rest ih => simp only [treesOfRegions, treesOfList_eq_map, ih, List.map_cons]
  rw [tree, nested]

theorem mem_entries (p : Placed) : (p.id, p.op) ∈ p.entries := by
  cases p
  rw [entries_node]
  exact List.mem_cons_self

theorem nodup_ids_node {id : OpId} {root : Node} {regions : List (List Placed)} :
    (node id root regions).ids.Nodup ↔ id ∉ (regions.flatten.flatMap entries).map (·.1) ∧
      ((regions.flatten.flatMap entries).map (·.1)).Nodup := by
  rw [ids, entries_node, List.map_cons, List.nodup_cons]

theorem length_entries_le {p : Placed} {ps : List Placed} (h : p ∈ ps) :
    p.entries.length ≤ (ps.flatMap entries).length := by
  rw [List.flatMap_def]
  exact (List.sublist_flatten_of_mem (List.mem_map_of_mem h)).length_le

end Placed

def Slots.Holds (ops : Slots Op) (entries : List (OpId × Op)) : Prop :=
  ∀ e ∈ entries, ops.get? e.1.index = some e.2

theorem OpId.index_injective : Function.Injective OpId.index := by
  intro a b h
  cases a
  cases b
  cases h
  rfl

theorem Slots.holds_of_mem {ops : Slots Op} {ps : List Placed} {p : Placed}
    (holds : ops.Holds (ps.flatMap Placed.entries)) (hp : p ∈ ps) : ops.Holds p.entries :=
  fun e he => holds e (List.mem_flatMap.mpr ⟨p, hp, he⟩)

theorem Slots.holds_append {ops : Slots Op} {es fs : List (OpId × Op)} :
    ops.Holds (es ++ fs) ↔ ops.Holds es ∧ ops.Holds fs := List.forall_mem_append

theorem Slots.Holds.length_le {ops : Slots Op} {entries : List (OpId × Op)}
    (holds : ops.Holds entries) (nodup : (entries.map (·.1)).Nodup) :
    entries.length ≤ ops.cells.size := by
  have distinct : (entries.map (·.1.index)).Nodup := by
    have slots := List.Nodup.map OpId.index_injective nodup
    rwa [List.map_map] at slots
  have inside : entries.map (·.1.index) ⊆ List.range ops.cells.size := by
    intro slot hslot
    obtain ⟨e, he, rfl⟩ := List.mem_map.mp hslot
    exact List.mem_range.mpr (Slots.lt_size_of_get? (holds e he))
  simpa using (distinct.subperm inside).length_le

namespace LinkUnit

structure Unfolds (u : LinkUnit) (ps : List Placed) : Prop where
  body : ps.map Placed.id = u.body
  holds : u.ops.Holds (ps.flatMap Placed.entries)
  nodup : ((ps.flatMap Placed.entries).map (·.1)).Nodup

theorem Unfolds.holds_of_mem {u : LinkUnit} {ps : List Placed} (h : u.Unfolds ps) {p : Placed}
    (hp : p ∈ ps) : u.ops.Holds p.entries := Slots.holds_of_mem h.holds hp

theorem Unfolds.held {u : LinkUnit} {ps : List Placed} (h : u.Unfolds ps) {p : Placed}
    (hp : p ∈ ps) : u.ops.get? p.id.index = some p.op := h.holds_of_mem hp _ p.mem_entries

/-- Every operation that is reached from the body is there, and is reached once. -/
def IsForest (u : LinkUnit) : Prop := ∃ ids, u.preorder = .ok ids ∧ ids.Nodup

instance (u : LinkUnit) : Decidable u.IsForest :=
  match h : u.preorder with
  | .ok ids => decidable_of_iff ids.Nodup
      ⟨fun nodup => ⟨ids, h, nodup⟩, fun ⟨_, h', nodup⟩ => Except.ok.inj (h.symm.trans h') ▸ nodup⟩
  | .error _ => .isFalse fun ⟨_, h', _⟩ => by rw [h] at h'; cases h'

variable {σ : Type} {u : LinkUnit}

theorem op_eq_ok_iff {id : OpId} {op : Op} : u.op id = .ok op ↔ u.ops.get? id.index = some op := by
  unfold LinkUnit.op Slots.get
  cases u.ops.get? id.index with
  | none => simp
  | some found => simp

theorem foldlM_foldFrom_eq {visit : σ → OpId → Op → Checked σ} {fuel : Nat} {ps : List Placed}
    (each : ∀ p ∈ ps, ∀ s, u.foldFrom visit fuel s p.id =
      p.entries.foldlM (fun s e => visit s e.1 e.2) s) (s : σ) :
    (ps.map Placed.id).foldlM (u.foldFrom visit fuel) s =
      (ps.flatMap Placed.entries).foldlM (fun s e => visit s e.1 e.2) s := by
  induction ps generalizing s with
  | nil => rfl
  | cons p rest ih =>
    simp only [List.map_cons, List.foldlM_cons, List.flatMap_cons, List.foldlM_append,
      each p List.mem_cons_self]
    exact bind_congr fun t => ih (fun q hq => each q (List.mem_cons_of_mem p hq)) t

theorem foldFrom_eq {visit : σ → OpId → Op → Checked σ} {p : Placed}
    (holds : u.ops.Holds p.entries) {fuel : Nat} (enough : p.entries.length ≤ fuel) (s : σ) :
    u.foldFrom visit fuel s p.id = p.entries.foldlM (fun s e => visit s e.1 e.2) s := by
  induction p generalizing fuel s with
  | node id root regions ih =>
    rw [Placed.entries_node] at holds enough ⊢
    obtain ⟨more, rfl⟩ : ∃ more, fuel = more + 1 :=
      ⟨fuel - 1, by simp only [List.length_cons] at enough; omega⟩
    have hroot : u.op id = .ok (Placed.node id root regions).op :=
      op_eq_ok_iff.mpr (holds _ List.mem_cons_self)
    simp only [foldFrom, Placed.id, hroot, ok_bind, List.foldlM_cons]
    refine bind_congr fun t => ?_
    have flat : (Placed.node id root regions).op.regions.flatten =
        regions.flatten.map Placed.id := by
      simp only [Placed.op, List.map_flatten]
    rw [flat]
    refine foldlM_foldFrom_eq (fun p hp s => ?_) t
    obtain ⟨region, hregion, hmem⟩ := List.mem_flatten.mp hp
    refine ih region hregion p hmem ?_ ?_ s
    · intro e he
      exact holds e (List.mem_cons_of_mem _ (List.mem_flatMap.mpr ⟨p, hp, he⟩))
    · exact Nat.le_trans (Placed.length_entries_le hp) (Nat.le_of_succ_le_succ enough)

theorem fold_eq {ps : List Placed} (h : u.Unfolds ps) (visit : σ → OpId → Op → Checked σ) (s : σ) :
    u.fold visit s = (ps.flatMap Placed.entries).foldlM (fun s e => visit s e.1 e.2) s := by
  unfold fold
  rw [← h.body]
  refine foldlM_foldFrom_eq (fun p hp s => foldFrom_eq ?_ ?_ s) s
  · exact h.holds_of_mem hp
  · exact Nat.le_trans (Placed.length_entries_le hp)
      (Nat.le_succ_of_le (h.holds.length_le h.nodup))

theorem preorder_eq {ps : List Placed} (h : u.Unfolds ps) :
    u.preorder = .ok ((ps.flatMap Placed.entries).map (·.1)) := by
  have collect : ∀ (es : List (OpId × Op)) (seen : List OpId),
      es.foldlM (fun seen e => (.ok (seen ++ [e.1]) : Checked (List OpId))) seen =
        .ok (seen ++ es.map (·.1)) := by
    intro es
    induction es with
    | nil => intro seen; rw [List.map_nil, List.append_nil]; rfl
    | cons e rest ih =>
      intro seen
      rw [List.foldlM_cons, ok_bind, ih, List.append_assoc, List.map_cons, List.singleton_append]
  exact (fold_eq h _ []).trans (collect _ [])

theorem exists_regroup {ps : List Placed} {regions : List (List OpId)}
    (h : ps.map Placed.id = regions.flatten) :
    ∃ groups : List (List Placed), groups.flatten = ps ∧
      groups.map (·.map Placed.id) = regions := by
  induction regions generalizing ps with
  | nil => exact ⟨[], (List.map_eq_nil_iff.mp h).symm, rfl⟩
  | cons region rest ih =>
    obtain ⟨front, back, rfl, hfront, hback⟩ := List.map_eq_append_iff.mp h
    obtain ⟨groups, rfl, hgroups⟩ := ih hback
    exact ⟨front :: groups, rfl, by rw [List.map_cons, hfront, hgroups]⟩

theorem exists_placedList {fuel : Nat} {ids seen seen' : List OpId}
    (each : ∀ id seen seen', u.foldFrom (fun seen id _ => .ok (seen ++ [id])) fuel seen id =
      .ok seen' → ∃ p : Placed, p.id = id ∧ u.ops.Holds p.entries ∧
        seen' = seen ++ p.entries.map (·.1))
    (h : ids.foldlM (u.foldFrom (fun seen id _ => .ok (seen ++ [id])) fuel) seen = .ok seen') :
    ∃ ps : List Placed, ps.map Placed.id = ids ∧ u.ops.Holds (ps.flatMap Placed.entries) ∧
      seen' = seen ++ (ps.flatMap Placed.entries).map (·.1) := by
  induction ids generalizing seen with
  | nil =>
    cases h
    exact ⟨[], rfl, fun _ he => absurd he List.not_mem_nil, (List.append_nil _).symm⟩
  | cons id rest ih =>
    rw [List.foldlM_cons, bind_eq_ok] at h
    obtain ⟨between, hid, hrest⟩ := h
    obtain ⟨p, rfl, hp, rfl⟩ := each _ _ _ hid
    obtain ⟨ps, rfl, hps, rfl⟩ := ih hrest
    refine ⟨p :: ps, rfl, Slots.holds_append.mpr ⟨hp, hps⟩, ?_⟩
    rw [List.flatMap_cons, List.map_append, List.append_assoc]

theorem exists_placed {fuel : Nat} {id : OpId} {seen seen' : List OpId}
    (h : u.foldFrom (fun seen id _ => .ok (seen ++ [id])) fuel seen id = .ok seen') :
    ∃ p : Placed, p.id = id ∧ u.ops.Holds p.entries ∧ seen' = seen ++ p.entries.map (·.1) := by
  induction fuel generalizing id seen seen' with
  | zero => cases h
  | succ fuel ih =>
    simp only [foldFrom, bind_eq_ok] at h
    obtain ⟨op, hop, between, hbetween, h⟩ := h
    cases hbetween
    obtain ⟨ps, hids, hps, rfl⟩ := exists_placedList (fun _ _ _ hid => ih hid) h
    obtain ⟨groups, rfl, hgroups⟩ := exists_regroup hids
    have hroot : (Placed.node id op.toNode groups).op = op := by
      simp only [Placed.op, hgroups]
    refine ⟨.node id op.toNode groups, rfl, ?_, ?_⟩
    · rw [Placed.entries_node, hroot]
      exact List.forall_mem_cons.mpr ⟨op_eq_ok_iff.mp hop, hps⟩
    · rw [Placed.entries_node, List.append_assoc]
      rfl

theorem isForest_iff : u.IsForest ↔ ∃ ps, u.Unfolds ps := by
  constructor
  · rintro ⟨ids, hids, nodup⟩
    obtain ⟨ps, hbody, hps, rfl⟩ := exists_placedList (fun _ _ _ hid => exists_placed hid) hids
    exact ⟨ps, hbody, hps, nodup⟩
  · rintro ⟨ps, hps⟩
    exact ⟨_, preorder_eq hps, hps.nodup⟩

end LinkUnit

end Linkage
