import Linkage.Checked
/-!
The numbers that fit into words of a fixed width, and arithmetic that does not leave them.
-/
namespace Linkage

def wordBound (bits : Nat) : Nat := Nat.pow 2 bits

def fitsInt64 (i : Int) : Bool := -(wordBound 63 : Int) ≤ i && i < wordBound 63

def sumWithin (bits : Nat) (fault : Fault) (a b : Nat) : Checked Nat :=
  if a + b < wordBound bits then .ok (a + b) else .error fault

def difference (a b : Nat) : Checked Nat :=
  if b ≤ a then .ok (a - b) else .error .countUnderflow

theorem sumWithin_eq_ok {bits a b : Nat} (fault : Fault) (fits : a + b < wordBound bits) :
    sumWithin bits fault a b = .ok (a + b) := if_pos fits

theorem sumWithin_eq_error {bits a b : Nat} (fault : Fault) (leaves : wordBound bits ≤ a + b) :
    sumWithin bits fault a b = .error fault := if_neg (Nat.not_lt_of_le leaves)

theorem difference_eq_ok {a b : Nat} (h : b ≤ a) : difference a b = .ok (a - b) := if_pos h

theorem wordBound_pos (bits : Nat) : 0 < wordBound bits := Nat.two_pow_pos bits

end Linkage
