import Linkage.Diagnostic.Basic
/-!
The log that passes write diagnostics to. It counts errors over its whole life: taking the
diagnostics out does not lower the count.
-/
namespace Linkage

structure Log where
  entries : List Diagnostic
  errorCount : Nat

namespace Log

def empty : Log := ⟨[], 0⟩

def emit (l : Log) (d : Diagnostic) : Log :=
  ⟨l.entries ++ [d], if d.severity.isError then l.errorCount + 1 else l.errorCount⟩

def emitAll (l : Log) (ds : List Diagnostic) : Log := ds.foldl emit l

def hasErrors (l : Log) : Bool := l.errorCount > 0

def drain (l : Log) : List Diagnostic × Log := (l.entries, { l with entries := [] })

theorem emitAll_entries (l : Log) (ds : List Diagnostic) :
    (l.emitAll ds).entries = l.entries ++ ds := by
  induction ds generalizing l with
  | nil => simp [emitAll]
  | cons d rest ih =>
    have step := ih (l.emit d)
    simp only [emitAll, List.foldl_cons] at step ⊢
    rw [step]
    simp [emit]

end Log

end Linkage
