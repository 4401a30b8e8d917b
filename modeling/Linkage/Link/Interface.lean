import Linkage.Op
import Linkage.Ty.Store
/-!
Comparing the interface a stub states with the one a definition has. Ports and parameters have to
agree in order. Fields have to agree as a map from names to types.
-/
namespace Linkage

/-- How the ports of a stub differ from those of the definition. Of two values the first is the
definition's. -/
inductive PortDifference where
  | count (definition stub : Nat)
  | name (index : Nat) (definition stub : Name)
  | direction (index : Nat) (definition stub : Direction)
  | ty (index : Nat) (definition stub : TyId)
deriving DecidableEq

namespace PortDifference

def first : Nat → List Port → List Port → Option PortDifference
  | index, l :: ls, r :: rs =>
    if l.name ≠ r.name then some (.name index l.name r.name)
    else if l.direction ≠ r.direction then some (.direction index l.direction r.direction)
    else if l.ty ≠ r.ty then some (.ty index l.ty r.ty)
    else first (index + 1) ls rs
  | _, _, _ => none

def find (definition stub : List Port) : Option PortDifference :=
  if definition.length ≠ stub.length then some (.count definition.length stub.length)
  else first 0 definition stub

def describe (types : TyStore) (lexicon : Lexicon) : PortDifference → Checked String
  | .count l r => return s!"the number of ports is not equal, {l} vs {r}"
  | .name index l r => do
    let l ← lexicon.text l
    let r ← lexicon.text r
    return s!"{index}-th port name is not equal, `{l}` vs `{r}`"
  | .direction index l r =>
    return s!"{index}-th port direction is not equal, {l.keyword} vs {r.keyword}"
  | .ty index l r => do
    let l ← types.display lexicon l
    let r ← types.display lexicon r
    return s!"{index}-th port type is not equal, {l} vs {r}"

end PortDifference

inductive ClassDifference where
  | paramCount (definition stub : Nat)
  | paramType (index : Nat) (definition stub : TyId)
  /-- The stub has a field that the definition lacks. -/
  | unknownField (name : Name)
  | fieldType (name : Name) (definition stub : TyId)
  /-- The definition has a field that the stub lacks. -/
  | uncovered (name : Name)
deriving DecidableEq

namespace ClassDifference

def firstParam : Nat → List Param → List Param → Option ClassDifference
  | index, l :: ls, r :: rs =>
    if l.ty ≠ r.ty then some (.paramType index l.ty r.ty) else firstParam (index + 1) ls rs
  | _, _, _ => none

def ofField (definition : ClassHead) (field : Field) : Option ClassDifference :=
  match definition.field? field.name with
  | none => some (.unknownField field.name)
  | some found =>
    if found.ty ≠ field.ty then some (.fieldType field.name found.ty field.ty) else none

/-- The first field that differs. The name of a field is read before the field is compared. -/
def firstField (lexicon : Lexicon) (definition : ClassHead) :
    List Field → Checked (Option ClassDifference)
  | [] => .ok none
  | field :: rest => do
    let _ ← lexicon.text field.name
    match ofField definition field with
    | some difference => return some difference
    | none => firstField lexicon definition rest

/-- The first difference: in the parameters, in the fields of the stub, or a field of the definition
that the stub lacks. -/
def search (lexicon : Lexicon) (definition stub : ClassHead) :
    Checked (Option ClassDifference) := do
  if definition.params.length ≠ stub.params.length then
    return some (.paramCount definition.params.length stub.params.length)
  match firstParam 0 definition.params stub.params with
  | some difference => return some difference
  | none =>
    match ← firstField lexicon definition stub.fields with
    | some difference => return some difference
    | none =>
      return (definition.fields.find? fun f => (stub.field? f.name).isNone).map (.uncovered ·.name)

end ClassDifference

end Linkage
