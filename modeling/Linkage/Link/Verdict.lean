import Linkage.Link.Interface
import Linkage.Link.Occurrences
import Linkage.Link.Report
import Linkage.Unit.Basic
/-!
The verdict on the declarations of one name. A name with a stub is shared by all units and needs
exactly one definition, which every stub has to agree with. A name without a stub belongs to each
unit that defines it, and several definitions are renamed apart, unless one of them is exported.
-/
namespace Linkage

structure Rejection where
  failure : LinkFailure
  report : List Diagnostic

inductive Halt where
  | fault (fault : Fault)
  | rejected (rejection : Rejection)

abbrev Linking := Except Halt

namespace Linking

def ofChecked {α : Type} (c : Checked α) : Linking α := c.mapError .fault

def reject {α : Type} (failure : LinkFailure) (report : Diagnostic) : Linking α :=
  .error (.rejected ⟨failure, [report]⟩)

def broken {α : Type} (detail : String) : Linking α :=
  .error (.rejected ⟨.broken detail, []⟩)

end Linking

structure Claimants (α : Type) where
  stubs : List (Span × α)
  definitions : List (Span × α)

inductive Objection where
  | differs (detail : String)
  | uncovered (field : Name)

structure Court where
  units : List LinkUnit
  types : TyStore
  lexicon : Lexicon

namespace Court

def op (c : Court) (site : Site) : Linking Op :=
  match c.units[site.unit]? with
  | none => .broken s!"declaration refers to missing unit #{site.unit}"
  | some unit =>
    match unit.ops.get? site.op.index with
    | none => .broken
        s!"declaration refers to erased operation {site.op.index} in unit #{site.unit}"
    | some op => .ok op

def claimants {α : Type} (c : Court) (space : Space) (text : String)
    (classify : OpKind → Option (Bool × α)) (sites : List Site) : Linking (Claimants α) :=
  sites.foldlM (fun found site => do
    let op ← c.op site
    match classify op.kind with
    | some (true, a) => return { found with stubs := found.stubs ++ [(op.span, a)] }
    | some (false, a) => return { found with definitions := found.definitions ++ [(op.span, a)] }
    | none => .broken s!"`{text}` collected as a {space.word} but is not one") ⟨[], []⟩

def judgeStubs {α : Type} (c : Court) (space : Space) (text : String)
    (object : α → α → Checked (Option Objection)) (definition : Span × α) :
    List (Span × α) → Linking Unit
  | [] => .ok ()
  | (span, stub) :: rest => do
    match ← Linking.ofChecked (object definition.2 stub) with
    | none => c.judgeStubs space text object definition rest
    | some (.differs detail) =>
      .reject (.mismatch space text) (Report.mismatch space text span definition.1 detail)
    | some (.uncovered field) => do
      let field ← Linking.ofChecked (c.lexicon.text field)
      .reject (.uncovered text field) (Report.uncovered text field span definition.1)

/-- Judges the stubs and definitions of a name, and says whether to rename them apart. -/
def settle {α : Type} (c : Court) (space : Space) (text : String)
    (object : α → α → Checked (Option Objection)) (found : Claimants α) : Linking Bool :=
  if found.stubs.isEmpty then .ok (found.definitions.length != 1)
  else match found.definitions with
    | [definition] => do
      c.judgeStubs space text object definition found.stubs
      return false
    | definitions =>
      .reject (.unresolved space text definitions.length)
        (Report.unresolved space text (found.stubs.map (·.1)) (definitions.map (·.1)))

def classifyModule : OpKind → Option (Bool × Visibility × List Port)
  | .moduleStub head => some (true, .local, head.ports)
  | .moduleDef visibility head => some (false, visibility, head.ports)
  | _ => none

def classifyClass : OpKind → Option (Bool × ClassHead)
  | .classStub head => some (true, head)
  | .classDef head => some (false, head)
  | _ => none

def objectToPorts (c : Court) (definition stub : List Port) : Checked (Option Objection) :=
  match PortDifference.find definition stub with
  | none => .ok none
  | some difference => do
    return some (.differs (← difference.describe c.types c.lexicon))

def objectToClass (c : Court) (definition stub : ClassHead) : Checked (Option Objection) := do
  match ← ClassDifference.search c.lexicon definition stub with
  | none => return none
  | some (.uncovered field) => return some (.uncovered field)
  | some (.paramCount l r) =>
    return some (.differs s!"the number of arguments is not equal, {l} vs {r}")
  | some (.paramType index l r) => do
    let l ← c.types.display c.lexicon l
    let r ← c.types.display c.lexicon r
    return some (.differs s!"{index}-th argument type is not equal, {l} vs {r}")
  | some (.unknownField name) => do
    let name ← c.lexicon.text name
    return some (.differs
      s!"declaration has a field `{name}` but not found in its definition")
  | some (.fieldType name l r) => do
    let name ← c.lexicon.text name
    let l ← c.types.display c.lexicon l
    let r ← c.types.display c.lexicon r
    return some (.differs
      s!"declaration has a field `{name}` but types don't match, {l} vs {r}")

def judgeModule (c : Court) (name : Name) (sites : List Site) : Linking Bool := do
  let text ← Linking.ofChecked (c.lexicon.text name)
  let found ← c.claimants .modules text classifyModule sites
  match found.definitions with
  | first :: others@(_ :: _) =>
    if found.definitions.any (·.2.1 == .exported) then
      .reject (.ambiguous text) (Report.ambiguous text first.1
        (others.map fun (span, visibility, _) => (span, visibility == .exported)))
  | _ => pure ()
  c.settle .modules text (fun definition stub => c.objectToPorts definition.2 stub.2) found

def judgeClass (c : Court) (name : Name) (sites : List Site) : Linking Bool := do
  let text ← Linking.ofChecked (c.lexicon.text name)
  let found ← c.claimants .classes text classifyClass sites
  c.settle .classes text c.objectToClass found

end Court

end Linkage
