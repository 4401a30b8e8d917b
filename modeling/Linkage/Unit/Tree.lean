import Linkage.Unit.Basic
/-!
Operations as trees. Taking an operation out of its unit yields the tree of what it contained;
putting the tree into another unit gives every operation of it a new slot there.
-/
namespace Linkage

inductive Tree where
  | node (root : Node) (regions : List (List Tree))

namespace Tree

mutual

def size : Tree → Nat
  | .node _ regions => 1 + sizeOfRegions regions

def sizeOfList : List Tree → Nat
  | [] => 0
  | tree :: rest => size tree + sizeOfList rest

def sizeOfRegions : List (List Tree) → Nat
  | [] => 0
  | region :: rest => sizeOfList region + sizeOfRegions rest

end

mutual

def plant : Tree → Slots Op → OpId × Slots Op
  | .node root regions, ops =>
    let (regions, ops) := plantRegions regions ops
    let (slot, ops) := ops.alloc { root with regions }
    (⟨slot⟩, ops)

def plantList : List Tree → Slots Op → List OpId × Slots Op
  | [], ops => ([], ops)
  | tree :: rest, ops =>
    let (id, ops) := plant tree ops
    let (ids, ops) := plantList rest ops
    (id :: ids, ops)

def plantRegions : List (List Tree) → Slots Op → List (List OpId) × Slots Op
  | [], ops => ([], ops)
  | region :: rest, ops =>
    let (ids, ops) := plantList region ops
    let (regions, ops) := plantRegions rest ops
    (ids :: regions, ops)

end

end Tree

namespace Slots

def uprootEach (uproot : Slots Op → OpId → Checked (Option Tree × Slots Op)) (ops : Slots Op)
    (ids : List OpId) : Checked (List Tree × Slots Op) := do
  let (trees, ops) ← mapAccumM uproot ops ids
  return (trees.filterMap id, ops)

def uprootWithin : Nat → Slots Op → OpId → Checked (Option Tree × Slots Op)
  | 0, _, _ => .error .endless
  | fuel + 1, ops, id => do
    match ← ops.take id.index with
    | (none, ops) => return (none, ops)
    | (some op, ops) =>
      let (regions, ops) ← mapAccumM (uprootEach (uprootWithin fuel)) ops op.regions
      return (some (.node op.toNode regions), ops)

/-- Takes out an operation with all that is nested in it. What was taken out before is left out,
so the outcome is a tree whatever the operations refer to. Every step empties a slot, so there is
fuel for all of them. -/
def uproot (ops : Slots Op) (id : OpId) : Checked (Option Tree × Slots Op) :=
  uprootWithin (ops.cells.size + 1) ops id

def prune (ops : Slots Op) (id : OpId) : Checked (Nat × Slots Op) := do
  match ← ops.uproot id with
  | (none, ops) => return (0, ops)
  | (some tree, ops) => return (tree.size, ops)

end Slots

namespace LinkUnit

/-- Removes an operation with all that is nested in it, also from the lists that mention it, and
counts what was removed. -/
def erase (u : LinkUnit) (id : OpId) : Checked (Nat × LinkUnit) :=
  if u.ops.contains id.index then do
    let (removed, ops) ← u.ops.prune id
    let unlink := fun (op : Op) =>
      { op with regions := op.regions.map (·.filter (· ≠ id)) }
    return (removed, { u with ops := ops.map unlink, body := u.body.filter (· ≠ id) })
  else return (0, u)

def splice (u other : LinkUnit) : Checked LinkUnit := do
  let (trees, _) ← Slots.uprootEach Slots.uproot other.ops other.body
  let (ids, ops) := Tree.plantList trees u.ops
  return { u with ops, body := u.body ++ ids }

end LinkUnit

end Linkage
