import Linkage.Unit.Sweep
import Linkage.Link.Failure
/-!
What a unit declares. Collecting the declarations also clears the body of everything else.
-/
namespace Linkage

structure Declaration where
  name : Name
  op : OpId
deriving DecidableEq

structure Declared where
  classes : List Declaration
  modules : List Declaration

namespace Declared

def empty : Declared := ⟨[], []⟩

/-- Notes a declaration and leaves it as it is, or erases an operation that declares nothing. -/
def note : Visitor Declared := fun id op d =>
  match op.kind with
  | .classDef head | .classStub head =>
    (.keep, op.toNode, { d with classes := d.classes ++ [⟨head.name, id⟩] })
  | .moduleDef _ head | .moduleStub head =>
    (.keep, op.toNode, { d with modules := d.modules ++ [⟨head.name, id⟩] })
  | .object _ _ | .generic _ => (.erase, op.toNode, d)

end Declared

/-- What a unit declares, the number of operations erased from it, and the unit without them. -/
structure Collected where
  declared : Declared
  debris : Nat
  unit : LinkUnit

def LinkUnit.collect (u : LinkUnit) : Checked Collected := do
  let (debris, unit, declared) ← u.sweep Declared.note .empty
  return { declared, debris, unit }

end Linkage
