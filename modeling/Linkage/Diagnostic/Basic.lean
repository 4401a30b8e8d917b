import Linkage.Source.Span
/-!
Diagnostics: a message with a code, the span it is about, further labelled spans and notes.
-/
namespace Linkage

inductive Severity where
  | note
  | warning
  | error
deriving DecidableEq

namespace Severity

def rank : Severity → Nat
  | .note => 0
  | .warning => 1
  | .error => 2

def word : Severity → String
  | .note => "note"
  | .warning => "warning"
  | .error => "error"

def isError (s : Severity) : Bool := s == .error

end Severity

inductive Category where
  | error
  | warning
deriving DecidableEq

def Category.letter : Category → Char
  | .error => 'E'
  | .warning => 'W'

structure Code where
  category : Category
  number : Nat
deriving DecidableEq

def Code.text (c : Code) : String :=
  let digits := (toString c.number).toList
  String.ofList (c.category.letter :: List.replicate (3 - digits.length) '0' ++ digits)

inductive LabelStyle where
  | primary
  | secondary
deriving DecidableEq

structure Label where
  span : Span
  message : String
  style : LabelStyle
deriving DecidableEq

structure Diagnostic where
  severity : Severity
  code : Code
  message : String
  span : Span
  labels : List Label
  notes : List String
deriving DecidableEq

namespace Diagnostic

def error (code : Code) (message : String) (span : Span) : Diagnostic :=
  ⟨.error, code, message, span, [], []⟩

def withSecondary (d : Diagnostic) (span : Span) (message : String) : Diagnostic :=
  { d with labels := d.labels ++ [⟨span, message, .secondary⟩] }

def secondaryLabels (d : Diagnostic) : List Label :=
  d.labels.filter (·.style == .secondary)

def caption (d : Diagnostic) : String :=
  ((d.labels.find? (·.style == .primary)).map Label.message).getD ""

end Diagnostic

end Linkage
