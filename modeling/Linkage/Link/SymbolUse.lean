import Linkage.Link.Report
import Linkage.Ty.Store
import Linkage.Unit.Walk
/-!
Checking how a linked unit uses names. The names declared at top level have to differ, every
object has to fit a class that is defined at top level, and every class in a type and every name
in an attribute has to be declared there.
-/
namespace Linkage

structure Misuse where
  name : Name
  report : Diagnostic

structure TopLevel where
  symbols : List (Name × Span)
  classes : List (Name × ClassHead)

namespace TopLevel

def empty : TopLevel := ⟨[], []⟩

def declares (t : TopLevel) (name : Name) : Bool := (t.symbols.lookup name).isSome

def definesClass (t : TopLevel) (name : Name) : Bool := (t.classes.lookup name).isSome

def add (lexicon : Lexicon) (t : TopLevel) (op : Op) : Checked (Option Misuse × TopLevel) :=
  match op.kind.declared? with
  | none => .ok (none, t)
  | some name =>
    match t.symbols.lookup name with
    | some first => do
      let text ← lexicon.text name
      return (some ⟨name, Report.duplicate text op.span first⟩, t)
    | none =>
      let t := { t with symbols := (name, op.span) :: t.symbols }
      match op.kind with
      | .classDef head => .ok (none, { t with classes := (head.name, head) :: t.classes })
      | _ => .ok (none, t)

def ofOps (lexicon : Lexicon) (ops : List Op) : Checked (List Misuse × TopLevel) := do
  let (misuses, t) ← mapAccumM (add lexicon) empty ops
  return (misuses.filterMap id, t)

end TopLevel

def distinct : List Name → List Name
  | [] => []
  | name :: rest => name :: (distinct rest).filter (· ≠ name)

structure Scope where
  topLevel : TopLevel
  types : TyStore
  lexicon : Lexicon

namespace Scope

def checkActuals (s : Scope) (head : ClassHead) (actuals : List TyId) :
    Checked (Option String) := do
  if head.params.length ≠ actuals.length then
    return some s!"takes {head.params.length} parameters but {actuals.length} were given"
  match (head.params.zip actuals).zipIdx.find? fun ((formal, actual), _) => formal.ty ≠ actual with
  | none => return none
  | some ((formal, actual), index) =>
    let formal ← s.types.display s.lexicon formal.ty
    let actual ← s.types.display s.lexicon actual
    return some s!"expects {formal} for parameter {index} but got {actual}"

/-- What is wrong with the results of an object. It has to have exactly one, an instance of its
class. -/
def checkResults (s : Scope) (ofClass : Name) (text : String) (results : List TyId) :
    Checked (Option String) := do
  let expected := s.types.lookup (.instanceOf ofClass)
  match results with
  | [result] => if some result = expected then return none
  | _ => pure ()
  let produced ← results.mapM (s.types.display s.lexicon)
  let produced := ", ".intercalate produced
  return some s!"must produce `class<@{text}>` but produces `{produced}`"

def checkObject (s : Scope) (op : Node) (ofClass : Name) (actuals : List TyId) :
    Checked (List Misuse) := do
  let text ← s.lexicon.text ofClass
  match s.topLevel.classes.lookup ofClass with
  | none => return [⟨ofClass, Report.undefined "class" text op.span⟩]
  | some head =>
    let actuals ← s.checkActuals head actuals
    let results ← s.checkResults ofClass text op.results
    return (actuals.toList ++ results.toList).map fun detail =>
      ⟨ofClass, Report.unfit text detail op.span⟩

/-- The classes that the types of an operation mention but the unit does not define, less the one
that was reported already. -/
def missingClasses (s : Scope) (op : Node) : Checked (List Name) := do
  let mentioned ← op.types.mapM s.types.classes
  let reported (name : Name) : Bool := match op.kind with
    | .object ofClass _ => name == ofClass
    | _ => false
  return distinct (mentioned.flatten.filter fun name =>
    !s.topLevel.definesClass name && !reported name)

def missingSymbols (s : Scope) (op : Node) : List Name :=
  distinct (op.refs.filter fun name => !s.topLevel.declares name)

def undefined (s : Scope) (kind : String) (span : Span) (name : Name) : Checked Misuse := do
  let text ← s.lexicon.text name
  return ⟨name, Report.undefined kind text span⟩

def check (s : Scope) (op : Node) : Checked (List Misuse) := do
  let unfit ← match op.kind with
    | .object ofClass actuals => s.checkObject op ofClass actuals
    | _ => pure []
  let classes ← (← s.missingClasses op).mapM (s.undefined "class" op.span)
  let symbols ← (s.missingSymbols op).mapM (s.undefined "symbol" op.span)
  return unfit ++ classes ++ symbols

end Scope

/-- Everything that is wrong with the uses of names in a unit: the names declared twice, then what
is wrong with each operation in pre-order. -/
def LinkUnit.misuses (u : LinkUnit) (types : TyStore) (lexicon : Lexicon) :
    Checked (List Misuse) := do
  let ops ← u.topLevel
  let (duplicates, topLevel) ← TopLevel.ofOps lexicon (ops.map (·.2))
  let scope : Scope := ⟨topLevel, types, lexicon⟩
  u.fold (fun found _ op => do return found ++ (← scope.check op.toNode)) duplicates

end Linkage
