import Linkage.Proofs.Outcomes
import Linkage.Unit.Tree
/-!
Removal and the counter. What comes out when operations are taken out can be read off the slots,
and the reading does not look at the counter. Taking them out gives the same trees and counts each
operation off, or stops where the counter runs out: so it succeeds exactly if as many operations
are counted as the trees have.
-/
namespace Linkage

theorem Tree.sizeOfList_append (ts ts' : List Tree) :
    sizeOfList (ts ++ ts') = sizeOfList ts + sizeOfList ts' := by
  induction ts with
  | nil => simp only [List.nil_append, sizeOfList, Nat.zero_add]
  | cons t rest ih => simp only [List.cons_append, sizeOfList, ih, Nat.add_assoc]

namespace Slots

variable {α β γ : Type}

def occupied (s : Slots α) : Nat := s.values.length

def without (s : Slots α) (slot : Nat) : Slots α :=
  { s with cells := s.cells.setIfInBounds slot none }

def recount (s : Slots α) (live : Nat) : Slots α := { s with live }

theorem occupied_le_size (s : Slots α) : s.occupied ≤ s.cells.size :=
  List.length_filterMap_le ..

theorem get?_without (s : Slots α) (slot other : Nat) :
    (s.without slot).get? other = if other = slot then none else s.get? other := by
  simp only [without, get?, Array.getElem?_setIfInBounds]
  by_cases here : slot = other
  · subst here
    by_cases inside : slot < s.cells.size <;> simp [inside]
  · simp [here, Ne.symm here]

theorem size_without (s : Slots α) (slot : Nat) :
    (s.without slot).cells.size = s.cells.size := Array.size_setIfInBounds

theorem length_values_set {cells : List (Option α)} {i : Nat} {a : α}
    (h : cells[i]? = some (some a))
    (new : Option α) :
    ((cells.set i new).filterMap id).length + 1 =
      (cells.filterMap id).length + new.toList.length := by
  induction cells generalizing i with
  | nil => cases h
  | cons cell rest ih =>
    cases i with
    | zero =>
      cases h
      cases new <;> simp
    | succ i =>
      have later := ih h
      cases cell <;>
        simp only [List.set_cons_succ, List.filterMap_cons, id, List.length_cons] at * <;>
        omega

theorem getElem?_toList_of_get? {s : Slots α} {slot : Nat} {a : α} (h : s.get? slot = some a) :
    s.cells.toList[slot]? = some (some a) := by
  rw [get?, Option.join_eq_some_iff] at h
  rw [Array.getElem?_toList, h]

theorem occupied_without {s : Slots α} {slot : Nat} {a : α} (h : s.get? slot = some a) :
    (s.without slot).occupied + 1 = s.occupied := by
  have count := length_values_set (getElem?_toList_of_get? h) none
  simpa only [without, occupied, values, Array.toList_setIfInBounds, Option.toList_none,
    List.length_nil, Nat.add_zero] using count

theorem without_of_vacant {s : Slots α} {slot : Nat} (h : s.get? slot = none) :
    s.without slot = s := by
  have cells : s.cells.setIfInBounds slot none = s.cells := by
    refine Array.ext Array.size_setIfInBounds fun i hi hi' => ?_
    rw [Array.getElem_setIfInBounds hi']
    split
    · next here =>
      subst here
      simpa [get?, Array.getElem?_eq_getElem hi', eq_comm] using h
    · rfl
  simp only [without, cells]

/-- Counts off what a reading took out, if so much is counted. -/
def settle (s : Slots α) (read : β × Slots α) : Checked (β × Slots α) :=
  if s.occupied - read.2.occupied ≤ s.live then
    .ok (read.1, read.2.recount (s.live - (s.occupied - read.2.occupied)))
  else .error .countUnderflow

theorem settle_self (s : Slots α) (b : β) : s.settle (b, s) = .ok (b, s) := by
  simp [settle, recount]

theorem settle_recount (s t : Slots α) (b : β) (live : Nat) :
    s.settle (b, t.recount live) = s.settle (b, t) := rfl

theorem settle_map (s : Slots α) (read : β × Slots α) (f : β → γ) :
    (s.settle read >>= fun out => .ok (f out.1, out.2)) = s.settle (f read.1, read.2) := by
  unfold settle
  split <;> rfl

theorem settle_bind {s t : Slots α} {first : β × Slots α} {c : γ}
    (fewer : first.2.occupied ≤ s.occupied) (fewer' : t.occupied ≤ first.2.occupied)
    {next : β × Slots α → Checked (γ × Slots α)}
    (later : ∀ live, next (first.1, first.2.recount live) = (first.2.recount live).settle (c, t)) :
    (s.settle first >>= next) = s.settle (c, t) := by
  by_cases enough : s.occupied - first.2.occupied ≤ s.live
  · have here : s.settle first = .ok (first.1, first.2.recount _) := if_pos enough
    have occupied : ∀ live, (first.2.recount live).occupied = first.2.occupied := fun _ => rfl
    have counted : ∀ live, (first.2.recount live).live = live := fun _ => rfl
    rw [here, ok_bind, later]
    simp only [settle, occupied, counted]
    by_cases more : s.occupied - t.occupied ≤ s.live
    · rw [if_pos more, if_pos (by omega)]
      have counter : s.live - (s.occupied - first.2.occupied) - (first.2.occupied - t.occupied) =
        s.live - (s.occupied - t.occupied) := by omega
      rw [counter]
    · rw [if_neg more, if_neg (by omega)]
  · have short : ¬ s.occupied - t.occupied ≤ s.live := by omega
    simp only [settle, if_neg enough, if_neg short]
    rfl

theorem take_eq_settle (s : Slots α) (slot : Nat) :
    s.take slot = s.settle (s.get? slot, s.without slot) := by
  cases h : s.get? slot with
  | none => rw [without_of_vacant h, settle_self, take, h]
  | some a =>
    have gone := occupied_without h
    have one : s.occupied - (s.without slot).occupied = 1 := by omega
    simp only [settle, one, take, h]
    cases counted : s.live with
    | zero => rfl
    | succ live => simp [recount, without]

structure Reads (read : Slots α → γ → β × Slots α) : Prop where
  blind : ∀ s live a, read (s.recount live) a = ((read s a).1, (read s a).2.recount live)
  fewer : ∀ s a, (read s a).2.occupied ≤ s.occupied

theorem Reads.mapAccum {read : Slots α → γ → β × Slots α} (h : Reads read) :
    Reads (mapAccum read) where
  blind s live xs := by
    induction xs generalizing s with
    | nil => rfl
    | cons a rest ih => simp only [Linkage.mapAccum, h.blind s live a, ih]
  fewer s xs := by
    induction xs generalizing s with
    | nil => exact Nat.le_refl _
    | cons a rest ih => exact Nat.le_trans (ih _) (h.fewer s a)

/-- A removal settles what a reading takes out, if so many values are left at most. -/
def Settles (bound : Nat) (read : Slots α → γ → β × Slots α)
    (removal : Slots α → γ → Checked (β × Slots α)) : Prop :=
  ∀ s a, s.occupied ≤ bound → removal s a = s.settle (read s a)

theorem Settles.mapAccumM {read : Slots α → γ → β × Slots α}
    {removal : Slots α → γ → Checked (β × Slots α)} {bound : Nat} (h : Settles bound read removal)
    (reads : Reads read) : Settles bound (mapAccum read) (mapAccumM removal) := by
  intro s xs few
  induction xs generalizing s with
  | nil => exact (settle_self s []).symm
  | cons a rest ih =>
    have fewer := reads.fewer s a
    simp only [Linkage.mapAccumM, Linkage.mapAccum, h s a few]
    refine settle_bind fewer (reads.mapAccum.fewer _ rest) fun live => ?_
    have others := ih (s := (read s a).2.recount live) (Nat.le_trans fewer few)
    rw [reads.mapAccum.blind, settle_recount] at others
    simp only [others]
    exact settle_map _ _ ((read s a).1 :: ·)

section

variable {read : Slots Op → OpId → Option Tree × Slots Op}

def extractEach (read : Slots Op → OpId → Option Tree × Slots Op) (ops : Slots Op)
    (ids : List OpId) : List Tree × Slots Op :=
  let (trees, ops) := mapAccum read ops ids
  (trees.filterMap id, ops)

def extractWithin : Nat → Slots Op → OpId → Option Tree × Slots Op
  | 0, ops, _ => (none, ops)
  | fuel + 1, ops, id =>
    match ops.get? id.index with
    | none => (none, ops)
    | some op =>
      let (regions, ops) :=
        mapAccum (extractEach (extractWithin fuel)) (ops.without id.index) op.regions
      (some (.node op.toNode regions), ops)

/-- The tree that taking an operation out yields, and the slots that are left. -/
def extract (ops : Slots Op) (id : OpId) : Option Tree × Slots Op :=
  extractWithin ops.cells.size ops id

theorem extractEach_cons (ops : Slots Op) (id : OpId) (ids : List OpId) :
    extractEach read ops (id :: ids) =
      ((read ops id).1.toList ++ (extractEach read (read ops id).2 ids).1,
        (extractEach read (read ops id).2 ids).2) := by
  simp only [extractEach, mapAccum]
  cases (read ops id).1 <;> rfl

theorem Reads.extractEach (h : Reads read) : Reads (extractEach read) where
  blind s live ids := by simp only [Slots.extractEach, h.mapAccum.blind]
  fewer s ids := h.mapAccum.fewer s ids

theorem reads_extractWithin (fuel : Nat) : Reads (extractWithin fuel) := by
  induction fuel with
  | zero => exact ⟨fun _ _ _ => rfl, fun _ _ => Nat.le_refl _⟩
  | succ fuel ih =>
    constructor
    · intro s live id
      have same : (s.recount live).get? id.index = s.get? id.index := rfl
      have recounted : (s.recount live).without id.index = (s.without id.index).recount live := rfl
      simp only [extractWithin, same]
      cases s.get? id.index with
      | none => rfl
      | some op => simp only [recounted, ih.extractEach.mapAccum.blind]
    · intro s id
      unfold extractWithin
      cases held : s.get? id.index with
      | none => exact Nat.le_refl _
      | some op =>
        have gone := occupied_without held
        exact Nat.le_trans (ih.extractEach.mapAccum.fewer _ op.regions) (by omega)

theorem Settles.uprootEach {bound : Nat}
    {removal : Slots Op → OpId → Checked (Option Tree × Slots Op)}
    (h : Settles bound read removal) (reads : Reads read) :
    Settles bound (extractEach read) (uprootEach removal) := by
  intro s ids few
  rw [Slots.uprootEach, h.mapAccumM reads s ids few]
  exact settle_map s _ _

/-- Every step empties a slot, so taking an operation out is over before there are more steps than
operations. -/
theorem settles_uprootWithin {time fuel : Nat} (enough : time ≤ fuel) :
    Settles time (extractWithin fuel) (uprootWithin (time + 1)) := by
  induction time generalizing fuel with
  | zero =>
    intro ops id few
    have vacant : ops.get? id.index = none := by
      by_contra held
      obtain ⟨op, hop⟩ := Option.ne_none_iff_exists'.mp held
      have gone := occupied_without hop
      omega
    have read : extractWithin fuel ops id = (none, ops) := by
      cases fuel <;> simp only [extractWithin, vacant]
    rw [read, settle_self, uprootWithin, take, vacant]
    rfl
  | succ time ih =>
    intro ops id few
    obtain ⟨fuel, rfl⟩ : ∃ more, fuel = more + 1 := ⟨fuel - 1, by omega⟩
    rw [uprootWithin, take_eq_settle, extractWithin]
    cases held : ops.get? id.index with
    | none =>
      rw [without_of_vacant held, settle_self]
      exact (settle_self ops none).symm
    | some op =>
      have gone := occupied_without held
      have reads := (reads_extractWithin fuel).extractEach
      refine settle_bind (Nat.le_of_lt (Nat.lt_of_succ_le (Nat.le_of_eq gone)))
        (reads.mapAccum.fewer _ op.regions) fun live => ?_
      have few' : ((ops.without id.index).recount live).occupied ≤ time := by
        have same : ((ops.without id.index).recount live).occupied =
          (ops.without id.index).occupied := rfl
        omega
      have nested := (ih (by omega : time ≤ fuel)).uprootEach (reads_extractWithin fuel)
      have regions := nested.mapAccumM reads _ op.regions few'
      rw [reads.mapAccum.blind, settle_recount] at regions
      simp only [regions]
      exact settle_map _ _ fun regions => some (Tree.node op.toNode regions)

theorem reads_extract : Reads extract where
  blind ops live id := (reads_extractWithin ops.cells.size).blind ops live id
  fewer ops id := (reads_extractWithin ops.cells.size).fewer ops id

theorem settles_uproot (bound : Nat) : Settles bound extract uproot := fun ops id _ =>
  settles_uprootWithin (Nat.le_refl ops.cells.size) ops id ops.occupied_le_size

theorem size_extractEach
    (each : ∀ ops id, Tree.sizeOfList (read ops id).1.toList + (read ops id).2.occupied =
      ops.occupied) (ops : Slots Op) (ids : List OpId) :
    Tree.sizeOfList (extractEach read ops ids).1 + (extractEach read ops ids).2.occupied =
      ops.occupied := by
  induction ids generalizing ops with
  | nil => exact Nat.zero_add _
  | cons id rest ih =>
    have first := each ops id
    have others := ih (read ops id).2
    simp only [extractEach_cons, Tree.sizeOfList_append]
    omega

theorem size_extractWithin (fuel : Nat) (ops : Slots Op) (id : OpId) :
    Tree.sizeOfList (extractWithin fuel ops id).1.toList + (extractWithin fuel ops id).2.occupied =
      ops.occupied := by
  induction fuel generalizing ops id with
  | zero => exact Nat.zero_add _
  | succ fuel ih =>
    unfold extractWithin
    cases held : ops.get? id.index with
    | none => exact Nat.zero_add _
    | some op =>
      have gone := occupied_without held
      have regions : ∀ (regions : List (List OpId)) (ops : Slots Op),
          Tree.sizeOfRegions (mapAccum (extractEach (extractWithin fuel)) ops regions).1 +
            (mapAccum (extractEach (extractWithin fuel)) ops regions).2.occupied =
              ops.occupied := by
        intro regions
        induction regions with
        | nil => exact fun ops => Nat.zero_add _
        | cons region rest ihr =>
          intro ops
          have first := size_extractEach ih ops region
          have others := ihr (extractEach (extractWithin fuel) ops region).2
          simp only [mapAccum, Tree.sizeOfRegions]
          omega
      have nested := regions op.regions (ops.without id.index)
      simp only [Option.toList_some, Tree.sizeOfList, Tree.size]
      omega

end

theorem size_extract (ops : Slots Op) (id : OpId) :
    Tree.sizeOfList (ops.extract id).1.toList + (ops.extract id).2.occupied = ops.occupied :=
  size_extractWithin ops.cells.size ops id

theorem settle_eq {s : Slots α} {read : β × Slots α} {gone : Nat}
    (sized : gone + read.2.occupied = s.occupied) :
    s.settle read = if gone ≤ s.live then .ok (read.1, read.2.recount (s.live - gone))
      else .error .countUnderflow := by
  have exactly : s.occupied - read.2.occupied = gone := by omega
  rw [settle, exactly]

theorem prune_eq (ops : Slots Op) (id : OpId) :
    ops.prune id = ops.settle (Tree.sizeOfList (ops.extract id).1.toList, (ops.extract id).2) := by
  refine Eq.trans ?_ (settle_map ops (ops.extract id) fun tree => Tree.sizeOfList tree.toList)
  rw [prune, settles_uproot _ ops id (Nat.le_refl _)]
  refine congrArg _ (funext fun ⟨tree, later⟩ => ?_)
  cases tree <;> rfl

end Slots

namespace LinkUnit

/-- The trees at top level, in order. What an earlier tree holds is left out of the later ones. -/
def forest (u : LinkUnit) : List Tree := (Slots.extractEach Slots.extract u.ops u.body).1

/-- As many operations are counted as there are in the trees. -/
def Covered (u : LinkUnit) : Prop := Tree.sizeOfList u.forest ≤ u.ops.live

instance (u : LinkUnit) : Decidable u.Covered :=
  inferInstanceAs (Decidable (Tree.sizeOfList u.forest ≤ u.ops.live))

def graft (u : LinkUnit) (trees : List Tree) : LinkUnit :=
  { u with
    ops := (Tree.plantList trees u.ops).2
    body := u.body ++ (Tree.plantList trees u.ops).1 }

/-- The operations of another unit can be moved exactly if they are all counted there. -/
theorem splice_eq (u other : LinkUnit) :
    u.splice other = if other.Covered then .ok (u.graft other.forest)
      else .error .countUnderflow := by
  have removal := (Slots.settles_uproot other.ops.occupied).uprootEach Slots.reads_extract
  have sized := Slots.size_extractEach Slots.size_extract other.ops other.body
  rw [splice, removal other.ops other.body (Nat.le_refl _), Slots.settle_eq sized]
  by_cases enough : Tree.sizeOfList (Slots.extractEach Slots.extract other.ops other.body).1 ≤
      other.ops.live
  · rw [if_pos enough, if_pos (show other.Covered from enough)]
    rfl
  · rw [if_neg enough, if_neg (show ¬ other.Covered from enough)]
    rfl

end LinkUnit

end Linkage
