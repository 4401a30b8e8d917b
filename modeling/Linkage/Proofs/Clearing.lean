import Linkage.Proofs.Counters
import Linkage.Proofs.Phases
/-!
A unit that is cleared. Collecting takes out the operations at top level that declare nothing, with
all that is nested in them, and touches nothing else; a unit that has been cleared is collected
again without any change.
-/
namespace Linkage

namespace Slots

variable {α : Type}

theorem Spent.eq {s t : Slots α} (h : s.Spent t) (size : t.cells.size = s.cells.size)
    (same : ∀ slot, t.get? slot = s.get? slot) : t = s := by
  have cells : t.cells = s.cells := by
    refine Array.ext size fun i ht hs => ?_
    have held := same i
    simpa only [get?, Array.getElem?_eq_getElem ht, Array.getElem?_eq_getElem hs,
      Option.join_some] using held
  have occupied : t.occupied = s.occupied := by simp only [Slots.occupied, values, cells]
  have live := h.counted
  have counter : t.live = s.live := by omega
  obtain ⟨_, _⟩ := s
  obtain ⟨_, _⟩ := t
  cases cells
  cases counter
  rfl

end Slots

namespace LinkUnit

inductive Below (u : LinkUnit) (root : OpId) : OpId → Prop
  | root : Below u root root
  | nested {id child : OpId} {op : Op} (h : Below u root id)
    (held : u.ops.get? id.index = some op) (inside : child ∈ op.regions.flatten) :
    Below u root child

def declaresAt (u : LinkUnit) (id : OpId) : Bool :=
  (u.ops.get? id.index).any (·.kind.declaration?.isSome)

/-- A unit without what declares nothing: the operations at top level that are no declarations are
gone with all that stands below them, every other one is in its slot as it was, and a tag is filled
in if there was none. -/
structure Cleared (u u' : LinkUnit) : Prop where
  id : u'.id = u.id
  span : u'.span = u.span
  tag : ∃ tag, u'.tag = some tag ∧ ∀ given ∈ u.tag, tag = given
  body : u'.body = u.body.filter u.declaresAt
  size : u'.ops.cells.size = u.ops.cells.size
  erased : ∀ root ∈ u.body, u.declaresAt root = false →
    ∀ id, u.Below root id → u'.ops.get? id.index = none
  kept : ∀ id, (∀ root ∈ u.body, u.declaresAt root = false → ¬ u.Below root id) →
    u'.ops.get? id.index = u.ops.get? id.index
  /-- The counter went down by the number of operations that are gone. -/
  counted : u'.ops.live + u.ops.occupied = u.ops.live + u'.ops.occupied

variable {u : LinkUnit} {ps : List Placed}

theorem Below.trans {root id id' : OpId} (h : u.Below root id) (h' : u.Below id id') :
    u.Below root id' := by
  induction h' with
  | root => exact h
  | nested _ held inside ih => exact ih.nested held inside

end LinkUnit

theorem Placed.mem_ids_of_child {p : Placed} {e : OpId × Op} (he : e ∈ p.entries) {child : OpId}
    (inside : child ∈ e.2.regions.flatten) : child ∈ p.ids := by
  induction p with
  | node id root regions ih =>
    rw [ids, entries_node, List.map_cons, List.map_flatMap]
    rw [entries_node] at he
    refine List.mem_cons_of_mem _ (List.mem_flatMap.mpr ?_)
    rcases List.mem_cons.mp he with rfl | he
    · simp only [op, ← List.map_flatten] at inside
      obtain ⟨q, hq, rfl⟩ := List.mem_map.mp inside
      exact ⟨q, hq, List.mem_map.mpr ⟨_, q.mem_entries, rfl⟩⟩
    · obtain ⟨q, hq, he⟩ := List.mem_flatMap.mp he
      obtain ⟨region, hregion, hmem⟩ := List.mem_flatten.mp hq
      exact ⟨q, hq, ih region hregion q hmem he⟩

theorem eq_of_mem_flatMap {α β : Type} {f : α → List β} {xs : List α}
    (nodup : (xs.flatMap f).Nodup) {a b : α} (ha : a ∈ xs) (hb : b ∈ xs) {x : β}
    (hx : x ∈ f a) (hx' : x ∈ f b) : a = b := by
  induction xs with
  | nil => cases ha
  | cons c rest ih =>
    rw [List.flatMap_cons] at nodup
    have apart := List.disjoint_of_nodup_append nodup
    rcases List.mem_cons.mp ha with rfl | later
    · rcases List.mem_cons.mp hb with rfl | later'
      · rfl
      · exact (apart hx (List.mem_flatMap.mpr ⟨b, later', hx'⟩)).elim
    · rcases List.mem_cons.mp hb with rfl | later'
      · exact (apart hx' (List.mem_flatMap.mpr ⟨a, later, hx⟩)).elim
      · exact ih nodup.of_append_right later later'

namespace LinkUnit

variable {u : LinkUnit} {ps : List Placed}

theorem below_iff {p : Placed} (holds : u.ops.Holds p.entries) {id : OpId} :
    u.Below p.id id ↔ id ∈ p.ids := by
  constructor
  · intro h
    induction h with
    | root => exact List.mem_map.mpr ⟨_, p.mem_entries, rfl⟩
    | nested _ held inside ih =>
      obtain ⟨e, he, rfl⟩ := List.mem_map.mp ih
      obtain rfl := Option.some.inj ((holds e he).symm.trans held)
      exact Placed.mem_ids_of_child he inside
  · intro h
    induction p with
    | node root node regions ih =>
      rw [Placed.ids, Placed.entries_node, List.map_cons, List.map_flatMap] at h
      rw [Placed.entries_node] at holds
      obtain ⟨hroot, hnested⟩ := List.forall_mem_cons.mp holds
      rcases List.mem_cons.mp h with rfl | h
      · exact .root
      · obtain ⟨q, hq, hid⟩ := List.mem_flatMap.mp h
        obtain ⟨region, hregion, hmem⟩ := List.mem_flatten.mp hq
        have below := ih region hregion q hmem
          (fun e he => hnested e (List.mem_flatMap.mpr ⟨q, hq, he⟩)) hid
        have child : u.Below root q.id := by
          refine Below.root.nested hroot ?_
          simp only [Placed.op, ← List.map_flatten]
          exact List.mem_map_of_mem hq
        exact child.trans below

theorem declaresAt_eq (h : u.Unfolds ps) {p : Placed} (hp : p ∈ ps) :
    u.declaresAt p.id = p.op.kind.declaration?.isSome := by
  simp only [declaresAt, h.held hp, Option.any_some]

theorem collect_becomes (h : u.Unfolds ps) {c : Collected} (hc : u.collect = .ok c) :
    u.ops.Becomes (ps.flatMap Placed.entries)
        ((ps.filter (·.op.kind.declaration?.isSome)).flatMap Placed.entries) c.unit.ops ∧
      c.unit = { u with
        ops := c.unit.ops
        body := (ps.filter (·.op.kind.declaration?.isSome)).map Placed.id } := by
  obtain ⟨⟨erased, u', declared⟩, hsweep, h'⟩ := bind_eq_ok.mp hc
  obtain ⟨ops, rfl, -, swept⟩ := (LinkUnit.sweep_forest_ends h Declared.note .empty).of_ok hsweep
  rw [(Placed.sweepList_note ps .empty).1] at swept h'
  cases h'
  exact ⟨swept.toBecomes, rfl⟩

theorem cleared_of_collect {tag : Name} (fills : ∀ given ∈ u.tag, tag = given)
    (h : u.Unfolds ps) {c : Collected}
    (hc : LinkUnit.collect { u with tag := some tag } = .ok c) : u.Cleared c.unit := by
  have retagged : LinkUnit.Unfolds { u with tag := some tag } ps := ⟨h.body, h.holds, h.nodup⟩
  obtain ⟨becomes, shape⟩ := collect_becomes retagged hc
  have mentioned : ∀ p ∈ ps, ∀ id ∈ p.ids, id ∈ (ps.flatMap Placed.entries).map (·.1) := by
    intro p hp id hid
    rw [List.map_flatMap]
    exact List.mem_flatMap.mpr ⟨p, hp, hid⟩
  refine ⟨by rw [shape], by rw [shape], ⟨tag, by rw [shape], fills⟩, ?_, becomes.size, ?_, ?_,
    (spent_collect hc).counted⟩
  · rw [shape, ← h.body, List.filter_map]
    refine congrArg _ (List.filter_congr fun p hp => ?_)
    exact (declaresAt_eq h hp).symm
  · intro root hroot declares id below
    rw [← h.body] at hroot
    obtain ⟨p, hp, rfl⟩ := List.mem_map.mp hroot
    rw [below_iff (h.holds_of_mem hp)] at below
    refine becomes.vacant id (mentioned p hp id below) fun hkept => ?_
    rw [List.map_flatMap] at hkept
    obtain ⟨q, hq, hid⟩ := List.mem_flatMap.mp hkept
    obtain ⟨hq, declared⟩ := List.mem_filter.mp hq
    have nodup := h.nodup
    rw [List.map_flatMap] at nodup
    obtain rfl := eq_of_mem_flatMap nodup hp hq below hid
    rw [declaresAt_eq h hp, declared] at declares
    cases declares
  · intro id apart
    by_cases reached : id ∈ (ps.flatMap Placed.entries).map (·.1)
    · obtain ⟨e, he, rfl⟩ := List.mem_map.mp reached
      obtain ⟨p, hp, hmem⟩ := List.mem_flatMap.mp he
      have declares : p.op.kind.declaration?.isSome = true := by
        by_contra other
        refine apart p.id (h.body ▸ List.mem_map_of_mem hp) ?_ ?_
        · rw [declaresAt_eq h hp]
          simpa using other
        · exact (below_iff (h.holds_of_mem hp)).mpr (List.mem_map_of_mem hmem)
      rw [h.holds e he]
      exact becomes.holds e
        (List.mem_flatMap.mpr ⟨p, List.mem_filter.mpr ⟨hp, declares⟩, hmem⟩)
    · exact becomes.outside id reached

/-- A unit that was collected is collected again as it is. -/
theorem collect_again (h : u.Unfolds ps) {c₁ : Collected} (hc : u.collect = .ok c₁)
    (covered : c₁.unit.Covered) : c₁.unit.collect = .ok ⟨c₁.declared, 0, c₁.unit⟩ := by
  obtain ⟨unfolds, -, declared, -, -⟩ := LinkUnit.collect_eq h hc
  obtain ⟨c₂, hc₂⟩ := covered.exists_collect unfolds
  obtain ⟨unfolds₂, -, declared₂, count, -⟩ := LinkUnit.collect_eq unfolds hc₂
  obtain ⟨becomes, shape⟩ := collect_becomes unfolds hc₂
  have all : (ps.filter (·.op.kind.declaration?.isSome)).filter
      (·.op.kind.declaration?.isSome) = ps.filter (·.op.kind.declaration?.isSome) := by
    simp only [List.filter_filter, Bool.and_self]
  rw [all] at becomes shape count
  have ops : c₂.unit.ops = c₁.unit.ops :=
    (spent_collect hc₂).eq becomes.size (becomes.get?_eq unfolds.holds)
  have unit : c₂.unit = c₁.unit := by
    rw [shape, ops, unfolds.body]
  have noted : c₂.declared = c₁.declared := by
    have each : ∀ space, c₂.declared.of space = c₁.declared.of space := by
      intro space
      rw [declared₂, declared, List.filterMap_filter]
      refine List.filterMap_congr fun p _ => ?_
      cases hdeclares : p.op.kind.declaration? with
      | none => simp [Placed.declarationIn, hdeclares]
      | some declaration => simp
    exact congrArg₂ Declared.mk (each .classes) (each .modules)
  have debris : c₂.debris = 0 := by omega
  rw [hc₂]
  obtain ⟨d₂, n₂, u₂⟩ := c₂
  cases noted
  cases unit
  cases debris
  rfl

end LinkUnit

theorem Design.cleared_of_collects {d : Design} (forest : ∀ u ∈ d.units, u.IsForest) {stem : String}
    {lexicon : Lexicon} {collected : List Collected}
    (h : (assignTags stem 0 lexicon d.units).1.mapM LinkUnit.collect = .ok collected) :
    List.Forall₂ LinkUnit.Cleared d.units (collected.map (·.unit)) := by
  rw [List.forall₂_map_right_iff]
  refine forall₂_comp_mem (assignTags_fills stem d.units 0 lexicon) (mapM_eq_ok.mp h)
    fun u hu u' c ⟨tag, heq, given⟩ hc => ?_
  obtain ⟨ps, hps⟩ := LinkUnit.isForest_iff.mp (forest u hu)
  subst heq
  exact LinkUnit.cleared_of_collect given hps hc

/-- The units that were collected are collected again as they are. -/
theorem Design.collects_again {d : Design} (forest : ∀ u ∈ d.units, u.IsForest)
    (covered : d.Covered) {stem : String} {lexicon : Lexicon} {collected : List Collected}
    (h : (assignTags stem 0 lexicon d.units).1.mapM LinkUnit.collect = .ok collected) :
    (collected.map (·.unit)).mapM LinkUnit.collect =
      .ok (collected.map fun c => ⟨c.declared, 0, c.unit⟩) := by
  obtain ⟨pss, hpss, hcs, covers⟩ := unfolds_of_collects forest h
  rw [mapM_eq_ok, List.forall₂_map_left_iff, List.forall₂_map_right_iff, List.forall₂_same]
  intro c hc
  obtain ⟨u', hu', hcollect⟩ := forall₂_exists_left (mapM_eq_ok.mp h) hc
  obtain ⟨u, hu, tag, rfl, -⟩ := forall₂_exists_left (assignTags_fills stem d.units 0 lexicon) hu'
  obtain ⟨ps, -, hps⟩ := forall₂_exists_right hpss hu
  have retagged : LinkUnit.Unfolds { u with tag := some tag } ps :=
    ⟨hps.body, hps.holds, hps.nodup⟩
  obtain ⟨v, hv, same⟩ := forall₂_exists_left covers hc
  exact LinkUnit.collect_again retagged hcollect (same.mpr (covered v hv))

end Linkage
