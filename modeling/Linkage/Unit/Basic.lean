import Linkage.Op
import Linkage.Slots
/-!
Units: what one source produced. The operations stand in slots, and refer to those nested in them
by slot.
-/
namespace Linkage

structure UnitId where
  index : Nat
deriving DecidableEq

structure LinkUnit where
  id : UnitId
  /-- The tag that sets the names of this unit apart. -/
  tag : Option Name
  span : Span
  ops : Slots Op
  /-- The operations at top level, in order. -/
  body : List OpId

namespace LinkUnit

def new (id : UnitId) (tag : Option Name) (span : Span) : LinkUnit :=
  ⟨id, tag, span, Slots.empty, []⟩

def opCount (u : LinkUnit) : Nat := u.ops.live

def isEmpty (u : LinkUnit) : Bool := u.body.isEmpty

def alloc (u : LinkUnit) (op : Op) : OpId × LinkUnit :=
  let (slot, ops) := u.ops.alloc op
  (⟨slot⟩, { u with ops })

def push (u : LinkUnit) (op : Op) : OpId × LinkUnit :=
  let (id, u) := u.alloc op
  (id, { u with body := u.body ++ [id] })

def op (u : LinkUnit) (id : OpId) : Checked Op := u.ops.get id.index

def topLevel (u : LinkUnit) : Checked (List (OpId × Op)) :=
  u.body.mapM fun id => do return (id, ← u.op id)

/-- The fuel for going down from the body, which is enough if no operation contains itself. -/
def depth (u : LinkUnit) : Nat := u.ops.cells.size + 1

end LinkUnit

end Linkage
