import Linkage.Link.Run
import Linkage.Proofs.Planting
/-!
The counter of a list of slots. It is exact if it gives the number of values they hold. A pass
writes values over others, which leaves the counter alone, and takes values out, each of which is
counted off: so an exact counter stays exact on the way and covers all that is taken out.
-/
namespace Linkage

namespace Slots

variable {α : Type}

def Exact (s : Slots α) : Prop := s.live = s.occupied

instance (s : Slots α) : Decidable s.Exact := inferInstanceAs (Decidable (s.live = s.occupied))

/-- Between the two some values went, and the counter went down by as many. -/
structure Spent (s s' : Slots α) : Prop where
  fewer : s'.occupied ≤ s.occupied
  counted : s'.live + s.occupied = s.live + s'.occupied

theorem Spent.refl (s : Slots α) : s.Spent s := ⟨Nat.le_refl _, rfl⟩

theorem Spent.trans {s t u : Slots α} (h : s.Spent t) (h' : t.Spent u) : s.Spent u := by
  have := h.fewer
  have := h.counted
  have := h'.fewer
  have := h'.counted
  constructor <;> omega

theorem Spent.exact {s s' : Slots α} (h : s.Spent s') (exact : s.Exact) : s'.Exact := by
  have := h.counted
  unfold Exact at *
  omega

theorem spent_of_settle {β : Type} {s t s' : Slots α} {b b' : β} (fewer : t.occupied ≤ s.occupied)
    (h : s.settle (b, t) = .ok (b', s')) : s.Spent s' := by
  unfold settle at h
  split at h
  · next enough =>
    cases h
    have same : (t.recount (s.live - (s.occupied - t.occupied))).occupied = t.occupied := rfl
    refine ⟨fewer, ?_⟩
    rw [same]
    simp only [recount] at enough ⊢
    omega
  · cases h

theorem occupied_without_le (s : Slots α) (slot : Nat) :
    (s.without slot).occupied ≤ s.occupied := by
  cases held : s.get? slot with
  | none => exact Nat.le_of_eq (congrArg occupied (without_of_vacant held))
  | some a =>
    have gone := occupied_without held
    omega

theorem spent_of_take {s s' : Slots α} {slot : Nat} {found : Option α}
    (h : s.take slot = .ok (found, s')) : s.Spent s' := by
  rw [take_eq_settle] at h
  exact spent_of_settle (s.occupied_without_le slot) h

theorem spent_put (s : Slots α) (slot : Nat) (a : α) : s.Spent (s.put slot a) := by
  by_cases used : s.contains slot = true
  · obtain ⟨old, hold⟩ := contains_iff.mp used
    have count := length_values_set (getElem?_toList_of_get? hold) (some a)
    have same : (s.put slot a).occupied = s.occupied := by
      simp only [put, used, if_true, occupied, values, Array.toList_setIfInBounds]
      simpa using count
    have counter := s.live_put slot a
    constructor <;> omega
  · have same : s.put slot a = s := if_neg used
    rw [same]
    exact .refl s

theorem Exact.settle_eq {β : Type} {s t : Slots α} (h : s.Exact) (fewer : t.occupied ≤ s.occupied)
    (b : β) : s.settle (b, t) = .ok (b, t.recount (s.live - (s.occupied - t.occupied))) := by
  unfold Exact at h
  exact if_pos (by simp only; omega)

theorem Exact.take_eq {s : Slots α} (h : s.Exact) (slot : Nat) :
    ∃ s', s.take slot = .ok (s.get? slot, s') ∧ s'.cells.size = s.cells.size ∧
      ∀ other, s'.get? other = if other = slot then none else s.get? other := by
  rw [take_eq_settle, h.settle_eq (s.occupied_without_le slot)]
  exact ⟨_, rfl, s.size_without slot, s.get?_without slot⟩

theorem Exact.exists_prune {ops : Slots Op} (h : ops.Exact) (id : OpId) :
    ∃ removed ops', ops.prune id = .ok (removed, ops') := by
  rw [prune_eq, h.settle_eq (reads_extract.fewer ops id)]
  exact ⟨_, _, rfl⟩

theorem exact_empty : (empty : Slots α).Exact := rfl

theorem Exact.alloc {s : Slots α} (h : s.Exact) (a : α) : (s.alloc a).2.Exact := by
  unfold Exact occupied values at *
  simp [Slots.alloc, h]

theorem spent_of_prune {ops ops' : Slots Op} {id : OpId} {removed : Nat}
    (h : ops.prune id = .ok (removed, ops')) : ops.Spent ops' := by
  rw [prune_eq] at h
  exact spent_of_settle (reads_extract.fewer ops id) h

end Slots

namespace Sweep

variable {σ : Type} {visit : Visitor σ}

theorem spent_one {region : Sweep σ → List OpId → Checked (List OpId × Sweep σ)}
    (inside : ∀ {s s' : Sweep σ} {ids kept}, region s ids = .ok (kept, s') → s.ops.Spent s'.ops)
    {s s' : Sweep σ} {id : OpId} {kept : Option OpId}
    (h : one visit region s id = .ok (kept, s')) : s.ops.Spent s'.ops := by
  obtain ⟨op, -, h⟩ := bind_eq_ok.mp h
  generalize visit id op s.state = answer at h
  obtain ⟨decision, node, state⟩ := answer
  have written := s.ops.spent_put id.index { node with regions := op.regions }
  cases decision with
  | erase =>
    obtain ⟨⟨removed, ops⟩, hprune, h⟩ := bind_eq_ok.mp h
    cases h
    exact written.trans (Slots.spent_of_prune hprune)
  | keep =>
    cases h
    exact written
  | descend =>
    obtain ⟨⟨regions, t⟩, hregions, h⟩ := bind_eq_ok.mp h
    obtain ⟨back, -, h⟩ := bind_eq_ok.mp h
    cases h
    have swept := (mapAccumM_grows (L := fun s t : Sweep σ => s.ops.Spent t.ops)
      (R := fun _ _ _ => True) (fun s => .refl s.ops) Slots.Spent.trans (fun _ _ => trivial)
      (fun _ _ hregion => ⟨inside hregion, trivial⟩) hregions).1
    have emptied := written.trans (Slots.spent_put _ id.index { node with regions := [] })
    exact (emptied.trans swept).trans (Slots.spent_put _ _ _)

theorem spent_list {fuel : Nat} {s s' : Sweep σ} {ids kept : List OpId}
    (h : list visit fuel s ids = .ok (kept, s')) : s.ops.Spent s'.ops := by
  induction fuel generalizing s s' ids kept with
  | zero => cases h
  | succ fuel ih =>
    obtain ⟨⟨found, t⟩, hfound, h⟩ := bind_eq_ok.mp h
    cases h
    exact (mapAccumM_grows (L := fun s t : Sweep σ => s.ops.Spent t.ops)
      (R := fun _ _ _ => True) (fun s => .refl s.ops) Slots.Spent.trans (fun _ _ => trivial)
      (fun _ _ hone => ⟨spent_one ih hone, trivial⟩) hfound).1

end Sweep

theorem LinkUnit.spent_sweep {σ : Type} {u u' : LinkUnit} {visit : Visitor σ} {state state' : σ}
    {erased : Nat} (h : u.sweep visit state = .ok (erased, u', state')) :
    u.ops.Spent u'.ops := by
  obtain ⟨⟨body, s⟩, hlist, h⟩ := bind_eq_ok.mp h
  cases h
  exact Sweep.spent_list hlist

theorem LinkUnit.spent_collect {u : LinkUnit} {c : Collected} (h : u.collect = .ok c) :
    u.ops.Spent c.unit.ops := by
  obtain ⟨⟨erased, unit, declared⟩, hsweep, h⟩ := bind_eq_ok.mp h
  cases h
  exact LinkUnit.spent_sweep hsweep

namespace Tree

def PlantsExact (t : Tree) : Prop := ∀ ops : Slots Op, ops.Exact → (t.plant ops).2.Exact

theorem exact_plantList {ts : List Tree} (each : ∀ t ∈ ts, t.PlantsExact) {ops : Slots Op}
    (exact : ops.Exact) : (plantList ts ops).2.Exact := by
  induction ts generalizing ops with
  | nil => exact exact
  | cons t rest ih =>
    obtain ⟨head, others⟩ := List.forall_mem_cons.mp each
    exact ih others (head ops exact)

theorem exact_plantRegions {regions : List (List Tree)}
    (each : ∀ region ∈ regions, ∀ t ∈ region, t.PlantsExact) {ops : Slots Op}
    (exact : ops.Exact) : (plantRegions regions ops).2.Exact := by
  induction regions generalizing ops with
  | nil => exact exact
  | cons region rest ih =>
    obtain ⟨head, others⟩ := List.forall_mem_cons.mp each
    exact ih others (exact_plantList head exact)

theorem plantsExact (t : Tree) : t.PlantsExact := by
  induction t with
  | node root regions ih => exact fun ops exact => (exact_plantRegions ih exact).alloc _

end Tree

theorem LinkUnit.covered_of_exact {u : LinkUnit} (exact : u.ops.Exact) : u.Covered := by
  have sized := Slots.size_extractEach Slots.size_extract u.ops u.body
  unfold Slots.Exact at exact
  unfold Covered forest
  omega

/-- Units are merged by planting into empty slots, so the counter of a merged unit is exact. -/
theorem exact_joined (units : List LinkUnit) : (joined units).ops.Exact :=
  Tree.exact_plantList (fun t _ => t.plantsExact) Slots.exact_empty

end Linkage
