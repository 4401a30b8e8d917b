import Linkage.Ty.Store
import Linkage.Unit.Basic
/-!
A design: the units to be linked, in order, and the types they share.
-/
namespace Linkage

structure Design where
  types : TyStore
  units : List LinkUnit

namespace Design

def empty : Design := ⟨TyStore.empty, []⟩

def unit? (d : Design) (id : UnitId) : Option LinkUnit := d.units.find? (·.id = id)

def addUnit (d : Design) (tag : Option Name) (span : Span) : Design :=
  { d with units := d.units ++ [.new ⟨d.units.length⟩ tag span] }

end Design

end Linkage
