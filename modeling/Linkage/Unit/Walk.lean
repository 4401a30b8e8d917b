import Linkage.Unit.Basic
/-!
Reading the operations of a unit in pre-order: each operation before those nested in it.
-/
namespace Linkage.LinkUnit

variable {σ : Type}

def foldFrom (u : LinkUnit) (visit : σ → OpId → Op → Checked σ) : Nat → σ → OpId → Checked σ
  | 0, _, _ => .error .endless
  | fuel + 1, s, id => do
    let op ← u.op id
    let s ← visit s id op
    op.regions.flatten.foldlM (u.foldFrom visit fuel) s

def fold (u : LinkUnit) (visit : σ → OpId → Op → Checked σ) (s : σ) : Checked σ :=
  u.body.foldlM (u.foldFrom visit u.depth) s

def preorder (u : LinkUnit) : Checked (List OpId) :=
  u.fold (fun seen id _ => .ok (seen ++ [id])) []

end Linkage.LinkUnit
