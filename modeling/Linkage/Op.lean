import Linkage.Attr
import Linkage.Source.Span
import Linkage.Ty.Basic
/-!
Operations. A declaration introduces a class or a module; a stub states the interface of one that
another unit defines.
-/
namespace Linkage

structure OpId where
  index : Nat
deriving DecidableEq

inductive Visibility where
  /-- Other units rely on the name, so it is never changed. -/
  | exported
  | local
deriving DecidableEq

inductive Direction where
  | input
  | output
  | inout
deriving DecidableEq

def Direction.keyword : Direction → String
  | .input => "in"
  | .output => "out"
  | .inout => "inout"

structure Port where
  name : Name
  direction : Direction
  ty : TyId
deriving DecidableEq

structure Param where
  name : Name
  ty : TyId
deriving DecidableEq

structure Field where
  name : Name
  ty : TyId
  span : Span
deriving DecidableEq

structure ClassHead where
  name : Name
  params : List Param
  fields : List Field
deriving DecidableEq

def ClassHead.field? (c : ClassHead) (name : Name) : Option Field :=
  c.fields.find? (·.name = name)

structure ModuleHead where
  name : Name
  ports : List Port
deriving DecidableEq

inductive OpKind where
  | classDef (head : ClassHead)
  | classStub (head : ClassHead)
  | moduleDef (visibility : Visibility) (head : ModuleHead)
  | moduleStub (head : ModuleHead)
  | object (ofClass : Name) (actuals : List TyId)
  | generic (opcode : Name)
deriving DecidableEq

structure Node where
  kind : OpKind
  span : Span
  attrs : List (Name × Attr)
  results : List TyId

structure Op extends Node where
  regions : List (List OpId)

namespace OpKind

def declared? : OpKind → Option Name
  | .classDef head | .classStub head => some head.name
  | .moduleDef _ head | .moduleStub head => some head.name
  | .object _ _ | .generic _ => none

def redeclare (name : Name) : OpKind → OpKind
  | .classDef head => .classDef { head with name }
  | .classStub head => .classStub { head with name }
  | .moduleDef visibility head => .moduleDef visibility { head with name }
  | .moduleStub head => .moduleStub { head with name }
  | kind => kind

def isStub : OpKind → Bool
  | .classStub _ | .moduleStub _ => true
  | _ => false

end OpKind

def ClassHead.types (c : ClassHead) : List TyId := c.params.map (·.ty) ++ c.fields.map (·.ty)

def ClassHead.mapTypes (f : TyId → TyId) (c : ClassHead) : ClassHead :=
  { c with
    params := c.params.map fun p => { p with ty := f p.ty }
    fields := c.fields.map fun p => { p with ty := f p.ty } }

def ModuleHead.types (m : ModuleHead) : List TyId := m.ports.map (·.ty)

def ModuleHead.mapTypes (f : TyId → TyId) (m : ModuleHead) : ModuleHead :=
  { m with ports := m.ports.map fun p => { p with ty := f p.ty } }

namespace OpKind

def types : OpKind → List TyId
  | .classDef head | .classStub head => head.types
  | .moduleDef _ head | .moduleStub head => head.types
  | .object _ actuals => actuals
  | .generic _ => []

def mapTypes (f : TyId → TyId) : OpKind → OpKind
  | .classDef head => .classDef (head.mapTypes f)
  | .classStub head => .classStub (head.mapTypes f)
  | .moduleDef visibility head => .moduleDef visibility (head.mapTypes f)
  | .moduleStub head => .moduleStub (head.mapTypes f)
  | .object ofClass actuals => .object ofClass (actuals.map f)
  | .generic opcode => .generic opcode

theorem types_mapTypes (f : TyId → TyId) (kind : OpKind) :
    (kind.mapTypes f).types = kind.types.map f := by
  cases kind <;>
    simp only [mapTypes, types, ClassHead.mapTypes, ClassHead.types,
      ModuleHead.mapTypes, ModuleHead.types, List.map_append, List.map_map, List.map_nil] <;> rfl

end OpKind

namespace Node

def attr? (n : Node) (key : Name) : Option Attr := n.attrs.lookup key

/-- Every type that an operation mentions: its results, then those of its kind. -/
def types (n : Node) : List TyId := n.results ++ n.kind.types

def mapTypes (f : TyId → TyId) (n : Node) : Node :=
  { n with results := n.results.map f, kind := n.kind.mapTypes f }

def refs (n : Node) : List Name := n.attrs.flatMap fun (_, value) => value.refs

def mapRefs (f : Name → Name) (n : Node) : Node :=
  { n with attrs := n.attrs.map fun (key, value) => (key, value.rename f) }

theorem types_mapTypes (f : TyId → TyId) (n : Node) :
    (n.mapTypes f).types = n.types.map f := by
  simp only [mapTypes, types, OpKind.types_mapTypes, List.map_append]

theorem refs_mapRefs (f : Name → Name) (n : Node) : (n.mapRefs f).refs = n.refs.map f := by
  simp only [mapRefs, refs, List.flatMap_map, List.map_flatMap, Attr.refs_rename]

end Node

end Linkage
