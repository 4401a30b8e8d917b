import Linkage.Checked
/-!
Byte ranges of source files.
-/
namespace Linkage

structure FileId where
  index : Nat
deriving DecidableEq

def FileId.none : FileId := ⟨4294967295⟩

structure Span where
  file : FileId
  start : Nat
  stop : Nat
deriving DecidableEq

namespace Span

def dummy : Span := ⟨FileId.none, 0, 0⟩

instance : Inhabited Span := ⟨dummy⟩

def join (a b : Span) : Checked Span :=
  if a.file = b.file then .ok ⟨a.file, min a.start b.start, max a.stop b.stop⟩
  else .error .mixedFiles

/-- Length in bytes. A span that ends before it starts is empty. -/
def length (s : Span) : Nat := s.stop - s.start

def isEmpty (s : Span) : Bool := s.length == 0

def isDummy (s : Span) : Bool := s.file == FileId.none

end Span

end Linkage
