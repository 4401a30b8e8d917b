import Linkage.Unit.Tree
/-!
Going through a unit in pre-order while changing it. At each operation the visitor may change
what the operation says, but not what is nested in it, and decides whether to go on into it, to
leave it alone or to erase it.
-/
namespace Linkage

inductive Decision where
  | descend
  | keep
  | erase
deriving DecidableEq

structure Sweep (σ : Type) where
  ops : Slots Op
  erased : Nat
  state : σ

/-- A visitor: given an operation, it answers with the decision, the operation as it is to be,
and its own next state. -/
abbrev Visitor (σ : Type) := OpId → Op → σ → Decision × Node × σ

namespace Sweep

variable {σ : Type}

/-- Visits an operation, given how to sweep a region of it. An operation that goes on into its
regions holds none while they are swept. -/
def one (visit : Visitor σ) (region : Sweep σ → List OpId → Checked (List OpId × Sweep σ))
    (s : Sweep σ) (id : OpId) : Checked (Option OpId × Sweep σ) := do
  let op ← s.ops.get id.index
  let (decision, node, state) := visit id op s.state
  let ops := s.ops.put id.index { node with regions := op.regions }
  match decision with
  | .erase =>
    let (removed, ops) ← ops.prune id
    return (none, ⟨ops, s.erased + removed, state⟩)
  | .keep => return (some id, ⟨ops, s.erased, state⟩)
  | .descend =>
    let ops := ops.put id.index { node with regions := [] }
    let (regions, s) ← mapAccumM region ⟨ops, s.erased, state⟩ op.regions
    let op ← s.ops.get id.index
    return (some id, { s with ops := s.ops.put id.index { op with regions } })

def list (visit : Visitor σ) : Nat → Sweep σ → List OpId → Checked (List OpId × Sweep σ)
  | 0, _, _ => .error .endless
  | fuel + 1, s, ids => do
    let (kept, s) ← mapAccumM (one visit (list visit fuel)) s ids
    return (kept.filterMap id, s)

end Sweep

def LinkUnit.sweep {σ : Type} (u : LinkUnit) (visit : Visitor σ) (state : σ) :
    Checked (Nat × LinkUnit × σ) := do
  let (body, s) ← Sweep.list visit u.depth ⟨u.ops, 0, state⟩ u.body
  return (s.erased, { u with ops := s.ops, body }, s.state)

end Linkage
