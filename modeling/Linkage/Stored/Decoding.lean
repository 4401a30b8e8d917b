import Linkage.Design
import Linkage.Diagnostic.Basic
import Linkage.Json.Decoder
import Linkage.Json.Reader
/-!
Reading the stored form of a design and of what it consists of.
-/
namespace Linkage

open Json Json.Decoder

def Json.Decoder.word32 : Decoder Nat := word 32

def Name.decode : Decoder Name := word32.map Name.mk

def TyId.decode : Decoder TyId := word32.map TyId.mk

def OpId.decode : Decoder OpId := word32.map OpId.mk

def UnitId.decode : Decoder UnitId := word32.map UnitId.mk

def FileId.decode : Decoder FileId := word32.map FileId.mk

def Span.decode : Decoder Span := fun depth j => do
  let (depth, values) ← recordOf ["file", "start", "end"] depth j
  match values with
  | [file, start, stop] =>
    return ⟨← required FileId.decode depth file, ← required word32 depth start,
      ← required word32 depth stop⟩
  | _ => none

def Ty.decode : Decoder Ty := fun depth j => do
  let (tag, contents, depth) ← choice depth j
  match tag with
  | "Int" => do
    let (depth, values) ← recordOf ["width", "signed"] depth (← contents)
    match values with
    | [width, signed] =>
      return .word (← required word32 depth width) (← required boolean depth signed)
    | _ => none
  | "Integer" => do noContents contents; return .integer
  | "Bool" => do noContents contents; return .bool
  | "Str" => do noContents contents; return .str
  | "List" => do
    let (depth, values) ← recordOf ["element"] depth (← contents)
    match values with
    | [element] => return .list (← required TyId.decode depth element)
    | _ => none
  | "Map" => do
    let (depth, values) ← recordOf ["key", "value"] depth (← contents)
    match values with
    | [key, value] =>
      return .map (← required TyId.decode depth key) (← required TyId.decode depth value)
    | _ => none
  | "Tuple" => do
    let (depth, values) ← recordOf ["elements"] depth (← contents)
    match values with
    | [elements] => return .tuple (← required (many TyId.decode) depth elements)
    | _ => none
  | "Class" => do
    let (depth, values) ← recordOf ["name"] depth (← contents)
    match values with
    | [name] => return .instanceOf (← required Name.decode depth name)
    | _ => none
  | "Path" => do noContents contents; return .path
  | "Any" => do noContents contents; return .any
  | _ => none

def TyStore.decode : Decoder TyStore := (many Ty.decode).map TyStore.ofList

namespace Attr

def decodeEntry (value : Decoder Attr) : Decoder (Name × Attr) := fun depth j => do
  let (depth, values) ← recordOf ["name", "value"] depth j
  match values with
  | [key, contents] =>
    return (← required Name.decode depth key, ← required value depth contents)
  | _ => none

def decodeWithin : Nat → Decoder Attr
  | 0 => fun _ _ => none
  | fuel + 1 => fun depth j => do
    let (tag, contents, depth) ← choice depth j
    let contents ← contents
    match tag with
    | "Int" => (int64 depth contents).map .int
    | "Str" => (text depth contents).map .str
    | "Bool" => (boolean depth contents).map .bool
    | "SymbolRef" => (Name.decode depth contents).map .ref
    | "Array" => (many (decodeWithin fuel) depth contents).map .array
    | "Dict" => (many (decodeEntry (decodeWithin fuel)) depth contents).map .dict
    | _ => none

/-- Reads an attribute. Every attribute in another one lies deeper, so the depth is fuel enough. -/
def decode : Decoder Attr := fun depth => decodeWithin (depth + 1) depth

end Attr

def Visibility.decode : Decoder Visibility := fun depth j => do
  let (tag, contents, _) ← choice depth j
  noContents contents
  match tag with
  | "Public" => return .exported
  | "Private" => return .local
  | _ => none

def Direction.decode : Decoder Direction := fun depth j => do
  let (tag, contents, _) ← choice depth j
  noContents contents
  match tag with
  | "Input" => return .input
  | "Output" => return .output
  | "InOut" => return .inout
  | _ => none

def Port.decode : Decoder Port := fun depth j => do
  let (depth, values) ← recordOf ["name", "direction", "ty"] depth j
  match values with
  | [name, direction, ty] =>
    return ⟨← required Name.decode depth name, ← required Direction.decode depth direction,
      ← required TyId.decode depth ty⟩
  | _ => none

def Param.decode : Decoder Param := fun depth j => do
  let (depth, values) ← recordOf ["name", "ty"] depth j
  match values with
  | [name, ty] => return ⟨← required Name.decode depth name, ← required TyId.decode depth ty⟩
  | _ => none

def Field.decode : Decoder Field := fun depth j => do
  let (depth, values) ← recordOf ["name", "ty", "span"] depth j
  match values with
  | [name, ty, span] =>
    return ⟨← required Name.decode depth name, ← required TyId.decode depth ty,
      ← required Span.decode depth span⟩
  | _ => none

def ClassHead.decode : Decoder ClassHead := fun depth j => do
  let (depth, values) ← recordOf ["name", "params", "fields"] depth j
  match values with
  | [name, params, fields] =>
    return ⟨← required Name.decode depth name, ← required (many Param.decode) depth params,
      ← required (many Field.decode) depth fields⟩
  | _ => none

def OpKind.decode : Decoder OpKind := fun depth j => do
  let (tag, contents, depth) ← choice depth j
  let contents ← contents
  match tag with
  | "Class" => (ClassHead.decode depth contents).map .classDef
  | "ClassExtern" => (ClassHead.decode depth contents).map .classStub
  | "Module" => do
    let (depth, values) ← recordOf ["name", "visibility", "ports"] depth contents
    match values with
    | [name, visibility, ports] =>
      return .moduleDef (← required Visibility.decode depth visibility)
        ⟨← required Name.decode depth name, ← required (many Port.decode) depth ports⟩
    | _ => none
  | "ModuleExtern" => do
    let (depth, values) ← recordOf ["name", "ports"] depth contents
    match values with
    | [name, ports] =>
      return .moduleStub
        ⟨← required Name.decode depth name, ← required (many Port.decode) depth ports⟩
    | _ => none
  | "Object" => do
    let (depth, values) ← recordOf ["class_name", "actual_params"] depth contents
    match values with
    | [ofClass, actuals] =>
      return .object (← required Name.decode depth ofClass)
        (← required (many TyId.decode) depth actuals)
    | _ => none
  | "Generic" => do
    let (depth, values) ← recordOf ["opcode"] depth contents
    match values with
    | [opcode] => return .generic (← required Name.decode depth opcode)
    | _ => none
  | _ => none

def Op.decode : Decoder Op := fun depth j => do
  let (depth, values) ← recordOf ["kind", "span", "attrs", "result_types", "regions"] depth j
  match values with
  | [kind, span, attrs, results, regions] =>
    return {
      kind := ← required OpKind.decode depth kind
      span := ← required Span.decode depth span
      attrs := ← required (many (Attr.decodeEntry Attr.decode)) depth attrs
      results := ← required (many TyId.decode) depth results
      regions := ← required (many (many OpId.decode)) depth regions }
  | _ => none

/-- Reads slots, given the reader of a value. The count is taken as it is written. -/
def Slots.decode {α : Type} (value : Decoder α) : Decoder (Slots α) := fun depth j => do
  let (depth, values) ← recordOf ["slots", "live"] depth j
  match values with
  | [cells, live] =>
    return ⟨(← required (many (option value)) depth cells).toArray, ← required (word 64) depth live⟩
  | _ => none

def LinkUnit.decode : Decoder LinkUnit := fun depth j => do
  let (depth, values) ← recordOf ["id", "namespace", "span", "ops", "body"] depth j
  match values with
  | [id, tag, span, ops, body] =>
    return ⟨← required UnitId.decode depth id, ← option Name.decode depth (tag.getD .null),
      ← required Span.decode depth span, ← required (Slots.decode Op.decode) depth ops,
      ← required (many OpId.decode) depth body⟩
  | _ => none

def Design.decode : Decoder Design := fun depth j => do
  let (depth, values) ← recordOf ["types", "units"] depth j
  match values with
  | [types, units] =>
    return ⟨← required TyStore.decode depth types, ← required (many LinkUnit.decode) depth units⟩
  | _ => none

def Category.decode : Decoder Category := fun depth j => do
  let (tag, contents, _) ← choice depth j
  noContents contents
  match tag with
  | "Error" => return .error
  | "Warning" => return .warning
  | _ => none

def Code.decode : Decoder Code := fun depth j => do
  let (depth, values) ← recordOf ["category", "number"] depth j
  match values with
  | [category, number] =>
    return ⟨← required Category.decode depth category, ← required (word 16) depth number⟩
  | _ => none

def Severity.decode : Decoder Severity := fun depth j => do
  let (tag, contents, _) ← choice depth j
  noContents contents
  match tag with
  | "Note" => return .note
  | "Warning" => return .warning
  | "Error" => return .error
  | _ => none

def LabelStyle.decode : Decoder LabelStyle := fun depth j => do
  let (tag, contents, _) ← choice depth j
  noContents contents
  match tag with
  | "Primary" => return .primary
  | "Secondary" => return .secondary
  | _ => none

def Label.decode : Decoder Label := fun depth j => do
  let (depth, values) ← recordOf ["span", "message", "style"] depth j
  match values with
  | [span, message, style] =>
    return ⟨← required Span.decode depth span, ← required text depth message,
      ← required LabelStyle.decode depth style⟩
  | _ => none

def Diagnostic.decode : Decoder Diagnostic := fun depth j => do
  let (depth, values) ←
    recordOf ["severity", "code", "message", "primary_span", "labels", "notes"] depth j
  match values with
  | [severity, code, message, span, labels, notes] =>
    return ⟨← required Severity.decode depth severity, ← required Code.decode depth code,
      ← required text depth message, ← required Span.decode depth span,
      ← required (many Label.decode) depth labels, ← required (many text) depth notes⟩
  | _ => none

def Json.Decoder.read {α : Type} (d : Decoder α) (text : String) : Option α := do
  d.run (← Json.parse text)

end Linkage
