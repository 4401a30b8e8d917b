import Linkage.Design
import Linkage.Diagnostic.Basic
import Linkage.Json.Value
/-!
The stored form of a design and of what it consists of. Names and ids are stored as numbers, a
case without contents as its name, and any other case as an object with the name as its only key.
-/
namespace Linkage

open Json

def Json.case (tag : String) (contents : Json) : Json := .obj [(tag, contents)]

def Name.encode (n : Name) : Json := .nat n.index

def TyId.encode (id : TyId) : Json := .nat id.index

def OpId.encode (id : OpId) : Json := .nat id.index

def Span.encode (s : Span) : Json :=
  .obj [("file", .nat s.file.index), ("start", .nat s.start), ("end", .nat s.stop)]

def Ty.encode : Ty → Json
  | .word width signed => .case "Int" (.obj [("width", .nat width), ("signed", .bool signed)])
  | .integer => .str "Integer"
  | .bool => .str "Bool"
  | .str => .str "Str"
  | .list element => .case "List" (.obj [("element", element.encode)])
  | .map key value => .case "Map" (.obj [("key", key.encode), ("value", value.encode)])
  | .tuple elements => .case "Tuple" (.obj [("elements", .arr (elements.map TyId.encode))])
  | .instanceOf name => .case "Class" (.obj [("name", name.encode)])
  | .path => .str "Path"
  | .any => .str "Any"

def TyStore.encode (s : TyStore) : Json := .arr (s.toList.map Ty.encode)

namespace Attr

mutual

def encode : Attr → Json
  | .int value => .case "Int" (.int value)
  | .str value => .case "Str" (.str value)
  | .bool value => .case "Bool" (.bool value)
  | .ref name => .case "SymbolRef" name.encode
  | .array items => .case "Array" (.arr (encodeItems items))
  | .dict entries => .case "Dict" (.arr (encodeEntries entries))

def encodeItems : List Attr → List Json
  | [] => []
  | item :: rest => encode item :: encodeItems rest

def encodeEntries : List (Name × Attr) → List Json
  | [] => []
  | (key, value) :: rest =>
    .obj [("name", key.encode), ("value", encode value)] :: encodeEntries rest

end

end Attr

def Visibility.encode : Visibility → Json
  | .exported => .str "Public"
  | .local => .str "Private"

def Direction.encode : Direction → Json
  | .input => .str "Input"
  | .output => .str "Output"
  | .inout => .str "InOut"

def Port.encode (p : Port) : Json :=
  .obj [("name", p.name.encode), ("direction", p.direction.encode), ("ty", p.ty.encode)]

def Param.encode (p : Param) : Json := .obj [("name", p.name.encode), ("ty", p.ty.encode)]

def Field.encode (f : Field) : Json :=
  .obj [("name", f.name.encode), ("ty", f.ty.encode), ("span", f.span.encode)]

def ClassHead.encode (c : ClassHead) : Json :=
  .obj [("name", c.name.encode), ("params", .arr (c.params.map Param.encode)),
    ("fields", .arr (c.fields.map Field.encode))]

def OpKind.encode : OpKind → Json
  | .classDef head => .case "Class" head.encode
  | .classStub head => .case "ClassExtern" head.encode
  | .moduleDef visibility head => .case "Module"
      (.obj [("name", head.name.encode), ("visibility", visibility.encode),
        ("ports", .arr (head.ports.map Port.encode))])
  | .moduleStub head => .case "ModuleExtern"
      (.obj [("name", head.name.encode), ("ports", .arr (head.ports.map Port.encode))])
  | .object ofClass actuals => .case "Object"
      (.obj [("class_name", ofClass.encode), ("actual_params", .arr (actuals.map TyId.encode))])
  | .generic opcode => .case "Generic" (.obj [("opcode", opcode.encode)])

def Op.encode (op : Op) : Json :=
  .obj [("kind", op.kind.encode), ("span", op.span.encode),
    ("attrs", .arr (Attr.encodeEntries op.attrs)),
    ("result_types", .arr (op.results.map TyId.encode)),
    ("regions", .arr (op.regions.map fun region => .arr (region.map OpId.encode)))]

def Slots.encode {α : Type} (value : α → Json) (s : Slots α) : Json :=
  .obj [("slots", .arr (s.cells.toList.map (.ofOption value))), ("live", .nat s.live)]

def LinkUnit.encode (u : LinkUnit) : Json :=
  .obj [("id", .nat u.id.index), ("namespace", .ofOption Name.encode u.tag),
    ("span", u.span.encode), ("ops", u.ops.encode Op.encode),
    ("body", .arr (u.body.map OpId.encode))]

def Design.encode (d : Design) : Json :=
  .obj [("types", d.types.encode), ("units", .arr (d.units.map LinkUnit.encode))]

def Category.encode : Category → Json
  | .error => .str "Error"
  | .warning => .str "Warning"

def Code.encode (c : Code) : Json :=
  .obj [("category", c.category.encode), ("number", .nat c.number)]

def Severity.encode : Severity → Json
  | .note => .str "Note"
  | .warning => .str "Warning"
  | .error => .str "Error"

def LabelStyle.encode : LabelStyle → Json
  | .primary => .str "Primary"
  | .secondary => .str "Secondary"

def Label.encode (l : Label) : Json :=
  .obj [("span", l.span.encode), ("message", .str l.message), ("style", l.style.encode)]

def Diagnostic.encode (d : Diagnostic) : Json :=
  .obj [("severity", d.severity.encode), ("code", d.code.encode), ("message", .str d.message),
    ("primary_span", d.span.encode), ("labels", .arr (d.labels.map Label.encode)),
    ("notes", .arr (d.notes.map .str))]

end Linkage
