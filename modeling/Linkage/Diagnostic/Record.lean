import Linkage.Diagnostic.Basic
import Linkage.Source.File
import Linkage.Json.Printer
/-!
Diagnostics as single lines of JSON, for other programs to read. The keys of every object are
sorted.
-/
namespace Linkage

def Span.record (s : Span) : Json :=
  .obj [("end", .nat s.stop), ("file", .nat s.file.index), ("start", .nat s.start)]

def LabelStyle.word : LabelStyle → String
  | .primary => "Primary"
  | .secondary => "Secondary"

namespace Diagnostic

def locationRecord (library : Library) (span : Span) : Checked Json := do
  return .ofOption (fun p => .str p.render) (← library.locate span)

def labelRecord (library : Library) (label : Label) : Checked Json := do
  return .obj [("location", ← locationRecord library label.span), ("message", .str label.message),
    ("span", label.span.record), ("style", .str label.style.word)]

def record (library : Library) (d : Diagnostic) : Checked Json := do
  return .obj [("code", .str d.code.text), ("labels", .arr (← d.labels.mapM (labelRecord library))),
    ("location", ← locationRecord library d.span), ("message", .str d.message),
    ("notes", .arr (d.notes.map .str)), ("severity", .str d.severity.word),
    ("span", d.span.record)]

def recordLine (library : Library) (d : Diagnostic) : Checked String := do
  return (← d.record library).render

end Diagnostic

end Linkage
