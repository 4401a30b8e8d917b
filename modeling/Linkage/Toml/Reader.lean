import Linkage.Toml.Document
import Linkage.Toml.Moment
import Linkage.Toml.Number
import Linkage.Toml.Text
/-!
Reading a TOML document.
-/
namespace Linkage.Toml

/-- The arrays and inline tables that may stand in one another, and the parts that a dotted key may
have. -/
def nestingLimit : Nat := 79

def isScalar (c : Char) : Bool :=
  c.isAlphanum || c == '_' || c == '-' || c == '+' || c == '.' || c == ':'

def readScalar (cs : List Char) : Option (Value × List Char) :=
  let token := cs.takeWhile isScalar
  let rest := cs.dropWhile isScalar
  if token = ['t', 'r', 'u', 'e'] then some (.bool true, rest)
  else if token = ['f', 'a', 'l', 's', 'e'] then some (.bool false, rest)
  else if isMoment token then
    match isDate token, rest with
    | true, ' ' :: tail =>
      if (tail.takeWhile isScalar).isEmpty then some (.moment, rest)
      else if isTimeWithOffset (tail.takeWhile isScalar) then
        some (.moment, tail.dropWhile isScalar)
      else none
    | _, _ => some (.moment, rest)
  else if isFloat token then some (.float, rest)
  else (integer? token).map fun i => (.int i, rest)

def readKeyPart (cs : List Char) : Option (String × List Char) :=
  match cs with
  | '"' :: rest => (readBasic rest).map fun (cs, rest) => (String.ofList cs, rest)
  | '\'' :: rest => (readLiteral rest).map fun (cs, rest) => (String.ofList cs, rest)
  | cs =>
    if (cs.takeWhile isBareKey).isEmpty then none
    else some (String.ofList (cs.takeWhile isBareKey), cs.dropWhile isBareKey)

def readKeyParts : Nat → List Char → Option (List String × List Char)
  | 0, _ => none
  | fuel + 1, cs => do
    let (part, rest) ← readKeyPart (skipBlanks cs)
    match skipBlanks rest with
    | '.' :: rest =>
      let (parts, rest) ← readKeyParts fuel rest
      return (part :: parts, rest)
    | rest => return ([part], rest)

structure Key where
  path : List String
  last : String

def readKey (cs : List Char) : Option (Key × List Char) := do
  let (parts, rest) ← readKeyParts nestingLimit cs
  let last ← parts.getLast?
  return (⟨parts.dropLast, last⟩, rest)

mutual

/-- Reads a value, given how many arrays and inline tables may still be opened. -/
def readValue : Nat → Nat → List Char → Option (Value × List Char)
  | 0, _, _ => none
  | fuel + 1, nesting, cs =>
    match cs, nesting with
    | '"' :: _, _ => (readString cs).map fun (s, rest) => (.str s, rest)
    | '\'' :: _, _ => (readString cs).map fun (s, rest) => (.str s, rest)
    | '[' :: _, 0 => none
    | '\x7b' :: _, 0 => none
    | '[' :: rest, nesting + 1 => do
      let (items, rest) ← readItems fuel nesting rest
      return (.array items, rest)
    | '\x7b' :: rest, nesting + 1 =>
      match skipBlanks rest with
      | '\x7d' :: rest => some (.table [], rest)
      | rest => do
        let (entries, rest) ← readEntries fuel nesting [] rest
        return (.table (entryValues entries), rest)
    | cs, _ => readScalar cs

def readItems : Nat → Nat → List Char → Option (List Value × List Char)
  | 0, _, _ => none
  | fuel + 1, nesting, cs => do
    match skipSpace cs with
    | ']' :: rest => return ([], rest)
    | cs =>
      let (item, rest) ← readValue fuel nesting cs
      match skipSpace rest with
      | ',' :: rest =>
        let (items, rest) ← readItems fuel nesting rest
        return (item :: items, rest)
      | ']' :: rest => return ([item], rest)
      | _ => none

def readEntries : Nat → Nat → Entries → List Char → Option (Entries × List Char)
  | 0, _, _, _ => none
  | fuel + 1, nesting, entries, cs => do
    let (key, rest) ← readKey cs
    let (value, rest) ← readValue fuel nesting (skipBlanks (← expect? '=' rest))
    let entries ← entries.addDotted key.last (.value value) key.path
    match skipBlanks rest with
    | ',' :: rest => readEntries fuel nesting entries rest
    | '\x7d' :: rest => return (entries, rest)
    | _ => none

end

/-- A document as far as it is read: its entries, and the header that the next lines belong to. -/
structure Document where
  entries : Entries
  header : List String

def readHeader (d : Document) (cs : List Char) : Option (Document × List Char) :=
  match cs with
  | '[' :: '[' :: rest => do
    let (key, rest) ← readKey rest
    let rest ← endLine? (← expect? ']' (← expect? ']' rest))
    let entries ← d.entries.modifyAt (Entries.openRow key.last) key.path
    return (⟨entries, key.path ++ [key.last]⟩, rest)
  | '[' :: rest => do
    let (key, rest) ← readKey rest
    let rest ← endLine? (← expect? ']' rest)
    let entries ← d.entries.modifyAt (Entries.openTable key.last) key.path
    return (⟨entries, key.path ++ [key.last]⟩, rest)
  | _ => none

def readEntry (fuel : Nat) (d : Document) (cs : List Char) : Option (Document × List Char) := do
  let (key, rest) ← readKey cs
  let (value, rest) ← readValue fuel nestingLimit (skipBlanks (← expect? '=' rest))
  let rest ← endLine? rest
  let entries ← d.entries.modifyAt (Entries.addDotted key.last (.value value) key.path) d.header
  return (⟨entries, d.header⟩, rest)

def readLines : Nat → Document → List Char → Option Document
  | 0, _, _ => none
  | fuel + 1, d, cs => do
    match endLine? cs with
    | some [] => return d
    | some rest => readLines fuel d rest
    | none =>
      let (d, rest) ← match skipBlanks cs with
        | '[' :: rest => readHeader d ('[' :: rest)
        | cs => readEntry (2 * cs.length + 2) d cs
      readLines fuel d rest

def parse (text : String) : Option (List (String × Value)) := do
  let cs := match text.toList with
    | '\uFEFF' :: rest => rest
    | cs => cs
  let d ← readLines (cs.length + 1) ⟨[], []⟩ cs
  return entryValues d.entries

end Linkage.Toml
