import Linkage.Name
/-!
Value types. The parts of a type are given by their ids in a store of types.
-/
namespace Linkage

structure TyId where
  index : Nat
deriving DecidableEq

inductive Ty where
  | word (width : Nat) (signed : Bool)
  | integer
  | bool
  | str
  | list (element : TyId)
  | map (key value : TyId)
  | tuple (elements : List TyId)
  | instanceOf (name : Name)
  | path
  | any
deriving DecidableEq

namespace Ty

def parts : Ty → List TyId
  | .list element => [element]
  | .map key value => [key, value]
  | .tuple elements => elements
  | _ => []

def withParts (ty : Ty) (ids : List TyId) : Ty :=
  match ty, ids with
  | .list _, [element] => .list element
  | .map _ _, [key, value] => .map key value
  | .tuple _, ids => .tuple ids
  | ty, _ => ty

theorem withParts_parts (ty : Ty) : ty.withParts ty.parts = ty := by
  cases ty <;> rfl

theorem parts_withParts {ty : Ty} {ids : List TyId} (h : ids.length = ty.parts.length) :
    (ty.withParts ids).parts = ids := by
  cases ty with
  | list element =>
    match ids, h with
    | [_], _ => rfl
  | map key value =>
    match ids, h with
    | [_, _], _ => rfl
  | tuple elements => rfl
  | _ => exact (List.eq_nil_of_length_eq_zero h).symm

end Ty

end Linkage
