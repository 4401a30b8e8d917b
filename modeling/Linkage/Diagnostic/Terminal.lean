import Linkage.Diagnostic.Basic
import Linkage.Source.File
/-!
Diagnostics as text for a terminal: a header, then the source line with carets under the span,
then the further places and the notes.
-/
namespace Linkage.Diagnostic

def paint (color : Bool) (style text : String) : String :=
  if color then "\x1b[" ++ style ++ "m" ++ text ++ "\x1b[0m" else text

/-- The rows that show a span, each without its line feed. There are none if the file of the span
is not known. -/
def excerpt (library : Library) (span : Span) (caption : String) : Checked (List String) := do
  let some place ← library.locate span | return []
  let some file := library.file? span.file | return []
  let text ← file.lineAt span.start
  let gutter := toString place.line
  let pad := String.ofList (List.replicate gutter.length ' ')
  let indent := String.ofList (List.replicate (← difference place.column 1) ' ')
  let carets := String.ofList (List.replicate (max span.length 1) '^')
  let marked := s!"{pad} | {indent}{carets}"
  return [s!"  --> {place.render}", s!"{pad} |", s!"{gutter} | {text}",
    if caption.isEmpty then marked else s!"{marked} {caption}"]

def header (color : Bool) (d : Diagnostic) : String :=
  let kind := s!"{d.severity.word}[{d.code.text}]"
  let style := if d.severity.isError then "1;31" else "1;33"
  s!"{paint color style kind}: {d.message}"

def terminalRows (color : Bool) (library : Library) (d : Diagnostic) : Checked (List String) := do
  let main ← excerpt library d.span d.caption
  let further ← d.secondaryLabels.mapM fun label => do
    let rows ← excerpt library label.span ""
    let note := paint color "1;36" "note"
    return s!"{note}: {label.message}" :: rows
  return d.header color :: main ++ further.flatten ++ d.notes.map fun note => s!"   = note: {note}"

def terminal (color : Bool) (library : Library) (d : Diagnostic) : Checked String := do
  let rows ← d.terminalRows color library
  return String.join (rows.map (· ++ "\n"))

end Linkage.Diagnostic
