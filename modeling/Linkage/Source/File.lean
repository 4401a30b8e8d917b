import Linkage.Source.Span
import Linkage.Word
/-!
Source files and the positions in them. Offsets and columns count bytes, lines and columns start
at one, and a line ends at a line feed. The offsets at which the lines start are kept in a table, in
words of 32 bits; the line of an offset is found by halving the table.
-/
namespace Linkage

/-- The offsets behind the line feeds among some bytes, the first of which is at `offset`. What does
not fit into 32 bits is cut off. -/
def startsBehind (offset : Nat) : List UInt8 → List Nat
  | [] => []
  | b :: rest =>
    if b = 10 then (offset + 1) % wordBound 32 :: startsBehind (offset + 1) rest
    else startsBehind (offset + 1) rest

/-- Where a stretch of a table ends that passes a test, found by halving. From `base` on there are
`size` values to look through. -/
def halve (passes : Nat → Bool) (base size : Nat) : Nat :=
  if size ≤ 1 then
    if size = 1 ∧ passes base then base + 1 else base
  else
    let middle := base + size / 2
    halve passes (if passes middle then middle else base) (size - size / 2)
termination_by size
decreasing_by omega

def partitionPoint (table : Array Nat) (passes : Nat → Bool) : Nat :=
  halve (fun place => table[place]?.any passes) 0 table.size

def cutAt : List Char → Nat → Option (List Char × List Char)
  | cs, 0 => some ([], cs)
  | [], _ + 1 => none
  | c :: rest, n + 1 =>
    if c.utf8Size ≤ n + 1 then
      (cutAt rest (n + 1 - c.utf8Size)).map fun (front, back) => (c :: front, back)
    else none

def slice (cs : List Char) (start stop : Nat) : Checked (List Char) :=
  match (cutAt cs stop).bind fun (front, _) => cutAt front start with
  | some (_, text) => .ok text
  | none => .error .splitCharacter

structure SourceFile where
  path : String
  content : String
deriving DecidableEq

namespace SourceFile

def bytes (f : SourceFile) : List UInt8 := f.content.toUTF8.data.toList

def lineTable (f : SourceFile) : Array Nat := (0 :: startsBehind 0 f.bytes).toArray

def lineStart (f : SourceFile) (line : Nat) : Checked Nat :=
  match f.lineTable[line]? with
  | some start => .ok start
  | none => .error (.outOfRange line)

/-- Line and column of a byte offset. Past the end of the text the last line goes on. -/
def position (f : SourceFile) (offset : Nat) : Checked (Nat × Nat) := do
  let line ← difference (partitionPoint f.lineTable (· ≤ offset)) 1
  let number ← sumWithin 32 .countOverflow (line % wordBound 32) 1
  let behind ← difference offset (← f.lineStart line)
  let column ← sumWithin 32 .columnOverflow behind 1
  return (number, column)

def lineText (f : SourceFile) (line : Nat) : Checked (List Char) := do
  let start ← f.lineStart line
  let stop ← match f.lineTable[line + 1]? with
    | some next => difference next 1
    | none => .ok f.bytes.length
  slice f.content.toList start stop

def lineAt (f : SourceFile) (offset : Nat) : Checked String := do
  let (number, _) ← f.position offset
  let text ← f.lineText (← difference number 1)
  return String.ofList (text.reverse.dropWhile (· == '\r')).reverse

end SourceFile

structure Place where
  path : String
  line : Nat
  column : Nat
deriving DecidableEq

def Place.render (p : Place) : String := s!"{p.path}:{p.line}:{p.column}"

structure Library where
  files : Array SourceFile

inductive LoadFailure where
  | missing
  | notText
deriving DecidableEq

def decodeFile (bytes : Option ByteArray) : Except LoadFailure String :=
  match bytes with
  | none => .error .missing
  | some bytes =>
    match String.fromUTF8? bytes with
    | none => .error .notText
    | some text => .ok text

namespace Library

def empty : Library := ⟨#[]⟩

instance : Inhabited Library := ⟨empty⟩

def add (l : Library) (path content : String) : FileId × Library :=
  (⟨l.files.size⟩, ⟨l.files.push ⟨path, content⟩⟩)

/-- Adds the file that has the given bytes on disk. A file that cannot be read takes no number. -/
def load (l : Library) (path : String) (bytes : Option ByteArray) :
    Except LoadFailure (FileId × Library) := do
  let content ← decodeFile bytes
  return l.add path content

def file? (l : Library) (id : FileId) : Option SourceFile := l.files[id.index]?

def locate (l : Library) (span : Span) : Checked (Option Place) :=
  match l.file? span.file with
  | none => .ok none
  | some file => do
    let (line, column) ← file.position span.start
    return some ⟨file.path, line, column⟩

end Library

end Linkage
