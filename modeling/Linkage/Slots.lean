import Linkage.Checked
import Linkage.Word
/-!
Values under stable slot numbers. Taking a value out leaves a vacant slot, a slot is never used
twice, and so the number of every other value stays good.
-/
namespace Linkage

/-- Slots in the order of their numbers, and the count of values they are said to hold. The count
is kept beside the slots: a stored one is taken at its word. -/
structure Slots (α : Type) where
  cells : Array (Option α)
  live : Nat

namespace Slots

variable {α : Type}

def empty : Slots α := ⟨#[], 0⟩

def alloc (s : Slots α) (a : α) : Nat × Slots α :=
  (s.cells.size, ⟨s.cells.push (some a), s.live + 1⟩)

/-- Puts a value into a new slot, refusing to count past 64 bits. -/
def add (s : Slots α) (a : α) : Checked (Nat × Slots α) :=
  if s.live + 1 < wordBound 64 then .ok (s.alloc a) else .error .countOverflow

def get? (s : Slots α) (slot : Nat) : Option α := s.cells[slot]?.join

def get (s : Slots α) (slot : Nat) : Checked α :=
  match s.get? slot with
  | some a => .ok a
  | none => .error (.vacant slot)

def contains (s : Slots α) (slot : Nat) : Bool := (s.get? slot).isSome

/-- Replaces the value in a slot. Vacant slots stay vacant. -/
def put (s : Slots α) (slot : Nat) (a : α) : Slots α :=
  if s.contains slot then { s with cells := s.cells.setIfInBounds slot (some a) } else s

def set (s : Slots α) (slot : Nat) (a : α) : Checked (Slots α) :=
  if s.contains slot then .ok (s.put slot a) else .error (.vacant slot)

/-- Empties a slot and counts one value less, refusing to count below zero. Nothing changes if the
slot is vacant. -/
def take (s : Slots α) (slot : Nat) : Checked (Option α × Slots α) :=
  match s.get? slot with
  | none => .ok (none, s)
  | some a =>
    match s.live with
    | 0 => .error .countUnderflow
    | live + 1 => .ok (some a, ⟨s.cells.setIfInBounds slot none, live⟩)

def isEmpty (s : Slots α) : Bool := s.live == 0

def toList (s : Slots α) : List (Nat × α) :=
  s.cells.toList.zipIdx.filterMap fun (cell, slot) => cell.map (slot, ·)

def values (s : Slots α) : List α := s.cells.toList.filterMap id

def map (f : α → α) (s : Slots α) : Slots α := { s with cells := s.cells.map (·.map f) }

theorem get?_empty (slot : Nat) : (empty : Slots α).get? slot = none := by
  simp only [get?, empty, List.getElem?_toArray, List.getElem?_nil, Option.join_none]

theorem get?_alloc (s : Slots α) (a : α) (slot : Nat) :
    (s.alloc a).2.get? slot = if slot = s.cells.size then some a else s.get? slot := by
  simp only [alloc, get?, Array.getElem?_push]
  split <;> rfl

theorem contains_iff {s : Slots α} {slot : Nat} :
    s.contains slot = true ↔ ∃ a, s.get? slot = some a := by
  simp only [contains, Option.isSome_iff_exists]

theorem lt_size_of_get? {s : Slots α} {slot : Nat} {a : α} (h : s.get? slot = some a) :
    slot < s.cells.size := by
  rcases Nat.lt_or_ge slot s.cells.size with hlt | hge
  · exact hlt
  · simp only [get?, Array.getElem?_eq_none hge, Option.join_none] at h
    cases h

theorem get?_put (s : Slots α) (slot other : Nat) (a : α) :
    (s.put slot a).get? other =
      if other = slot ∧ s.contains slot then some a else s.get? other := by
  unfold put
  split
  · next h =>
    obtain ⟨old, hold⟩ := contains_iff.1 h
    have := lt_size_of_get? hold
    simp only [get?, Array.getElem?_setIfInBounds]
    by_cases ho : other = slot
    · subst ho; simp only [if_pos this, h, and_self, if_true, Option.join_some]
    · simp only [if_neg (Ne.symm ho), ho, false_and, if_false]
  · next h => rw [if_neg fun both => h both.2]

theorem size_put (s : Slots α) (slot : Nat) (a : α) : (s.put slot a).cells.size = s.cells.size := by
  unfold put
  split
  · exact Array.size_setIfInBounds
  · rfl

theorem live_put (s : Slots α) (slot : Nat) (a : α) : (s.put slot a).live = s.live := by
  unfold put
  split <;> rfl

theorem get?_map (f : α → α) (s : Slots α) (slot : Nat) :
    (s.map f).get? slot = (s.get? slot).map f := by
  simp only [map, get?, Array.getElem?_map]
  cases s.cells[slot]? with
  | none => rfl
  | some cell => rfl

end Slots

end Linkage
