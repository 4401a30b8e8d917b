/-!
Fresh names. A name is fresh if no declaration has it and it was not handed out before; of the
candidates for a name the first fresh one is taken.
-/
namespace Linkage

/-- The names that are taken, and for each stem the number at which to look for a free one: all
smaller numbers are taken. -/
structure NamePool where
  taken : List String
  next : List (String × Nat)

namespace NamePool

def empty : NamePool := ⟨[], []⟩

def contains (p : NamePool) (name : String) : Bool := p.taken.contains name

def reserve (p : NamePool) (name : String) : NamePool :=
  if p.contains name then p else { p with taken := name :: p.taken }

def numbered (stem : String) (index : Nat) : String := stem ++ "_" ++ toString index

/-- The first number from `index` on that gives a free name. Among one more candidates than there
are taken names one is free, so there is fuel to find it. -/
def firstFree (taken : List String) (stem : String) : Nat → Nat → Nat
  | 0, index => index
  | fuel + 1, index =>
    if taken.contains (numbered stem index) then firstFree taken stem fuel (index + 1) else index

def allocateNumbered (p : NamePool) (stem : String) : String × NamePool :=
  let index := firstFree p.taken stem p.taken.length ((p.next.lookup stem).getD 0)
  let name := numbered stem index
  (name, { p.reserve name with
    next := (stem, index + 1) :: p.next.filter (·.1 ≠ stem) })

/-- Takes the first free name among the base, the base with the suffix, and that with a number.
Without a suffix the numbers follow the base. -/
def allocate (p : NamePool) (base : String) (suffix : Option String) : String × NamePool :=
  if !p.contains base then (base, p.reserve base)
  else match suffix with
    | none => p.allocateNumbered base
    | some suffix =>
      let stem := base ++ "_" ++ suffix
      if !p.contains stem then (stem, p.reserve stem) else p.allocateNumbered stem

theorem contains_reserve (p : NamePool) (name other : String) :
    (p.reserve name).contains other = (p.contains other || other == name) := by
  unfold reserve
  split
  · next h =>
    by_cases ho : other = name
    · rw [ho, h, Bool.true_or]
    · rw [beq_eq_false_iff_ne.2 ho, Bool.or_false]
  · simp only [contains, List.contains_cons, Bool.or_comm]

end NamePool

end Linkage
