import Linkage.Name
/-!
The new names of declarations. One name may be renamed apart in different units, so a renaming is
looked up by unit and name.
-/
namespace Linkage

/-- A name as one unit uses it. The unit is given by its position in the design. -/
structure SymbolKey where
  unit : Nat
  name : Name
deriving DecidableEq

def SymbolKey.le (a b : SymbolKey) : Bool :=
  a.unit < b.unit || (a.unit == b.unit && a.name.index ≤ b.name.index)

structure Renaming where
  entries : List (SymbolKey × Name)

namespace Renaming

def empty : Renaming := ⟨[]⟩

def insert (r : Renaming) (unit : Nat) (name new : Name) : Renaming :=
  ⟨(⟨unit, name⟩, new) :: r.entries.filter (·.1 ≠ ⟨unit, name⟩)⟩

def get? (r : Renaming) (unit : Nat) (name : Name) : Option Name :=
  r.entries.lookup ⟨unit, name⟩

def apply (r : Renaming) (unit : Nat) (name : Name) : Name := (r.get? unit name).getD name

def touches (r : Renaming) (unit : Nat) : Bool := r.entries.any (·.1.unit == unit)

def size (r : Renaming) : Nat := r.entries.length

theorem lookup_filter_ne {α β : Type} [DecidableEq α] (key other : α) (entries : List (α × β)) :
    (entries.filter (·.1 ≠ key)).lookup other =
      if other = key then none else entries.lookup other := by
  induction entries with
  | nil => simp only [List.filter_nil, List.lookup_nil, ite_self]
  | cons entry rest ih =>
    obtain ⟨k, v⟩ := entry
    by_cases hk : k = key
    · subst hk
      rw [List.filter_cons_of_neg (by simp), ih]
      by_cases ho : other = k
      · simp only [ho, if_true]
      · simp only [ho, if_false, List.lookup_cons, beq_eq_false_iff_ne.2 ho]
    · rw [List.filter_cons_of_pos (by simp [hk])]
      by_cases ho : other = k
      · subst ho
        simp only [List.lookup_cons, beq_self_eq_true, hk, if_false]
      · simp only [List.lookup_cons, beq_eq_false_iff_ne.2 ho, ih]

theorem get?_insert (r : Renaming) (unit unit' : Nat) (name name' new : Name) :
    (r.insert unit name new).get? unit' name' =
      if unit' = unit ∧ name' = name then some new else r.get? unit' name' := by
  have key : (⟨unit', name'⟩ : SymbolKey) = ⟨unit, name⟩ ↔ unit' = unit ∧ name' = name :=
    SymbolKey.mk.injEq .. ▸ Iff.rfl
  simp only [get?, insert, List.lookup_cons]
  by_cases h : (⟨unit', name'⟩ : SymbolKey) = ⟨unit, name⟩
  · rw [if_pos (key.1 h), beq_iff_eq.2 h]
  · rw [if_neg (mt key.2 h), beq_eq_false_iff_ne.2 h, lookup_filter_ne, if_neg h]

end Renaming

end Linkage
