import Linkage.Diagnostic.Basic
import Linkage.Link.Failure
/-!
The diagnostics of a link. Codes 300 to 304 are about the resolution of names, codes 305 to 307
about the linked unit.
-/
namespace Linkage.Report

def code (number : Nat) : Code := ⟨.error, number⟩

def ambiguous (name : String) (first : Span) (others : List (Span × Bool)) : Diagnostic :=
  others.foldl
    (fun d (span, exported) => d.withSecondary span
      (if exported then s!"module `{name}` is declared here as public"
        else s!"module `{name}` is defined here"))
    (.error (code 300)
      s!"module `{name}` is declared as a public module but there are multiple public modules defined with the same name"
      first)

def unresolved (space : Space) (name : String) (stubs definitions : List Span) : Diagnostic :=
  let kind := space.word
  let (number, reason) :=
    if definitions.isEmpty then (301, "there is no definition")
    else (302, "there are multiple definitions")
  let d := Diagnostic.error (code number)
    s!"{kind} `{name}` is declared as an external {kind} but {reason}"
    (stubs.headD Span.dummy)
  let d := (stubs.drop 1).foldl
    (fun d span => d.withSecondary span s!"{kind} `{name}` is declared here as well") d
  definitions.foldl (fun d span => d.withSecondary span s!"{kind} `{name}` is defined here") d

def mismatch (space : Space) (name : String) (stub definition : Span) (detail : String) :
    Diagnostic :=
  (Diagnostic.error (code 303)
    s!"failed to link {space.word} `{name}` since declaration doesn't match the definition: {detail}"
    stub).withSecondary definition "definition is here"

def uncovered (name field : String) (stub definition : Span) : Diagnostic :=
  (Diagnostic.error (code 304)
    s!"failed to link class `{name}` since declaration doesn't match the definition: definition has a field `{field}` but not found in this declaration"
    stub).withSecondary definition "definition is here"

def undefined (kind name : String) (span : Span) : Diagnostic :=
  .error (code 305) s!"{kind} `{name}` is not defined in the linked design" span

def unfit (name detail : String) (span : Span) : Diagnostic :=
  .error (code 306) s!"object of class `{name}` {detail}" span

def duplicate (name : String) (span first : Span) : Diagnostic :=
  (Diagnostic.error (code 307)
    s!"symbol `{name}` is defined more than once in the linked design"
    span).withSecondary first "first definition is here"

end Linkage.Report
