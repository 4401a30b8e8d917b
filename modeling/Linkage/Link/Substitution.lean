import Linkage.Design
import Linkage.Link.Renaming
import Linkage.Unit.Sweep
/-!
Applying a renaming to a unit: to its declarations, to the classes of its objects, to the names
its attributes refer to and to the classes in its types. The stubs are erased on the way.
-/
namespace Linkage

structure TyRemap where
  pairs : List (TyId × TyId)

namespace TyRemap

def empty : TyRemap := ⟨[]⟩

def apply (m : TyRemap) (id : TyId) : TyId := (m.pairs.lookup id).getD id

def build (rename : Name → Option Name) (ids : List TyId) (types : TyStore) :
    Checked (TyRemap × TyStore) := do
  let (changed, types) ← mapAccumM (fun types id => do
    let (new, types) ← types.substitute rename id
    return ((id, new), types)) types ids
  return (⟨changed.filter fun (old, new) => new ≠ old⟩, types)

/-- How the types of each unit change. A unit in which nothing is renamed is passed over. -/
def buildAll (types : TyStore) (unitCount : Nat) (renames : Renaming) :
    Checked (List TyRemap × TyStore) :=
  mapAccumM (fun now unit =>
    if renames.touches unit then build (renames.get? unit) types.ids now
    else .ok (empty, now)) types (List.range unitCount)

end TyRemap

structure RewriteCounts where
  stubsErased : Nat
  opsErased : Nat
  renamesApplied : Nat
deriving DecidableEq

def OpKind.renameObject (f : Name → Name) : OpKind → OpKind
  | .object ofClass actuals => .object (f ofClass) actuals
  | kind => kind

def Node.rewrite (renames : Renaming) (unit : Nat) (remap : TyRemap) (n : Node) : Node :=
  let kind := match n.kind.declared?.bind (renames.get? unit) with
    | some new => n.kind.redeclare new
    | none => n.kind
  (({ n with kind := kind.renameObject (renames.apply unit) }).mapTypes remap.apply).mapRefs
    (renames.apply unit)

/-- Erases a stub and counts it, or renames an operation and counts it if it is a declaration
under a new name. -/
def RewriteCounts.visit (renames : Renaming) (unit : Nat) (remap : TyRemap) :
    Visitor RewriteCounts := fun _ op counts =>
  if op.kind.isStub then
    (.erase, op.toNode, { counts with stubsErased := counts.stubsErased + 1 })
  else
    let renamed := (op.kind.declared?.bind (renames.get? unit)).isSome
    (.descend, op.toNode.rewrite renames unit remap,
      if renamed then { counts with renamesApplied := counts.renamesApplied + 1 } else counts)

def LinkUnit.rewrite (u : LinkUnit) (unit : Nat) (renames : Renaming) (remap : TyRemap) :
    Checked (RewriteCounts × LinkUnit) := do
  let (opsErased, u, counts) ← u.sweep (RewriteCounts.visit renames unit remap) ⟨0, 0, 0⟩
  return ({ counts with opsErased }, u)

def Design.rewrite (d : Design) (renames : Renaming) :
    Checked (List TyRemap × List RewriteCounts × Design) := do
  let (remaps, types) ← TyRemap.buildAll d.types d.units.length renames
  let rewritten ← (d.units.zip remaps).zipIdx.mapM fun ((u, remap), unit) =>
    u.rewrite unit renames remap
  return (remaps, rewritten.map (·.1), ⟨types, rewritten.map (·.2)⟩)

end Linkage
