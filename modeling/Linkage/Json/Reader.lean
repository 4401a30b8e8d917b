import Linkage.Json.Value
/-!
Reading JSON text. Each step answers with what it read and with the text that is left.
-/
namespace Linkage.Json

def isBlank (c : Char) : Bool := c == ' ' || c == '\t' || c == '\n' || c == '\r'

def skipBlanks (cs : List Char) : List Char := cs.dropWhile isBlank

def hexValue? (c : Char) : Option Nat :=
  if '0' ≤ c ∧ c ≤ '9' then some (c.toNat - 48)
  else if 'a' ≤ c ∧ c ≤ 'f' then some (c.toNat - 87)
  else if 'A' ≤ c ∧ c ≤ 'F' then some (c.toNat - 55)
  else none

def codeUnit? (a b c d : Char) : Option Nat := do
  let a ← hexValue? a
  let b ← hexValue? b
  let c ← hexValue? c
  let d ← hexValue? d
  return ((a * 16 + b) * 16 + c) * 16 + d

def isHighSurrogate (n : Nat) : Bool := 0xD800 ≤ n && n < 0xDC00

def isLowSurrogate (n : Nat) : Bool := 0xDC00 ≤ n && n < 0xE000

def unescape? (c : Char) : Option Char :=
  match c with
  | '"' => some '"'
  | '\\' => some '\\'
  | '/' => some '/'
  | 'b' => some '\x08'
  | 'f' => some '\x0c'
  | 'n' => some '\n'
  | 'r' => some '\r'
  | 't' => some '\t'
  | _ => none

/-- Reads up to the closing quote. Half of a surrogate pair comes out as nothing. -/
def readChars : List Char → Option (List (Option Char) × List Char)
  | [] => none
  | '"' :: rest => some ([], rest)
  | '\\' :: 'u' :: a :: b :: c :: d :: '\\' :: 'u' :: a' :: b' :: c' :: d' :: rest => do
    let high ← codeUnit? a b c d
    let low ← codeUnit? a' b' c' d'
    if isHighSurrogate high && isLowSurrogate low then
      let (cs, rest) ← readChars rest
      return (some (Char.ofNat (0x10000 + (high - 0xD800) * 1024 + (low - 0xDC00))) :: cs, rest)
    else
      let (cs, rest) ← readChars ('\\' :: 'u' :: a' :: b' :: c' :: d' :: rest)
      return ((if isHighSurrogate high || isLowSurrogate high then none
        else some (Char.ofNat high)) :: cs, rest)
  | '\\' :: 'u' :: a :: b :: c :: d :: rest => do
    let unit ← codeUnit? a b c d
    let (cs, rest) ← readChars rest
    return ((if isHighSurrogate unit || isLowSurrogate unit then none
      else some (Char.ofNat unit)) :: cs, rest)
  | '\\' :: c :: rest => do
    let c ← unescape? c
    let (cs, rest) ← readChars rest
    return (some c :: cs, rest)
  | c :: rest => do
    if c.toNat < 32 || c == '\\' then none
    let (cs, rest) ← readChars rest
    return (some c :: cs, rest)

def readString (cs : List Char) : Option (Option String × List Char) := do
  let (units, rest) ← readChars cs
  return ((units.mapM id).map String.ofList, rest)

def digitsValue (cs : List Char) : Nat := cs.foldl (fun n c => n * 10 + (c.toNat - 48)) 0

def readFraction (cs : List Char) : Option (Bool × List Char) :=
  match cs with
  | '.' :: rest =>
    if (rest.takeWhile Char.isDigit).isEmpty then none
    else some (true, rest.dropWhile Char.isDigit)
  | _ => some (false, cs)

def readExponent (cs : List Char) : Option (Bool × List Char) :=
  match cs with
  | [] => some (false, [])
  | c :: rest =>
    if c == 'e' || c == 'E' then
      let digits := match rest with
        | '+' :: digits => digits
        | '-' :: digits => digits
        | digits => digits
      if (digits.takeWhile Char.isDigit).isEmpty then none
      else some (true, digits.dropWhile Char.isDigit)
    else some (false, cs)

def readNumber (cs : List Char) : Option (Json × List Char) := do
  let (negative, cs) := match cs with
    | '-' :: rest => (true, rest)
    | cs => (false, cs)
  let digits := cs.takeWhile Char.isDigit
  if digits.isEmpty || (digits.length > 1 && digits.head? == some '0') then none
  let (fraction, rest) ← readFraction (cs.dropWhile Char.isDigit)
  let (exponent, rest) ← readExponent rest
  let n := digitsValue digits
  if fraction || exponent || (negative && n == 0) then return (.foreign, rest)
  return (.int (if negative then -n else n), rest)

def ofEntries (entries : List (Option String × Json)) : Json :=
  match entries.mapM fun (key, value) => key.map (·, value) with
  | some fields => .obj fields
  | none => .foreign

mutual

/-- Reads one value. The fuel bounds the number of nested steps. -/
def readValue : Nat → List Char → Option (Json × List Char)
  | 0, _ => none
  | fuel + 1, cs =>
    match skipBlanks cs with
    | 'n' :: 'u' :: 'l' :: 'l' :: rest => some (.null, rest)
    | 't' :: 'r' :: 'u' :: 'e' :: rest => some (.bool true, rest)
    | 'f' :: 'a' :: 'l' :: 's' :: 'e' :: rest => some (.bool false, rest)
    | '"' :: rest => do
      let (text, rest) ← readString rest
      return ((text.map Json.str).getD .foreign, rest)
    | '[' :: rest =>
      match skipBlanks rest with
      | ']' :: rest => some (.arr [], rest)
      | _ => do
        let (items, rest) ← readItems fuel rest
        return (.arr items, rest)
    | '\x7b' :: rest =>
      match skipBlanks rest with
      | '\x7d' :: rest => some (.obj [], rest)
      | _ => do
        let (entries, rest) ← readEntries fuel rest
        return (ofEntries entries, rest)
    | cs => readNumber cs

def readItems : Nat → List Char → Option (List Json × List Char)
  | 0, _ => none
  | fuel + 1, cs => do
    let (item, rest) ← readValue fuel cs
    match skipBlanks rest with
    | ']' :: rest => return ([item], rest)
    | ',' :: rest =>
      let (items, rest) ← readItems fuel rest
      return (item :: items, rest)
    | _ => none

def readEntries : Nat → List Char → Option (List (Option String × Json) × List Char)
  | 0, _ => none
  | fuel + 1, cs =>
    match skipBlanks cs with
    | '"' :: rest => do
      let (key, rest) ← readString rest
      match skipBlanks rest with
      | ':' :: rest =>
        let (value, rest) ← readValue fuel rest
        match skipBlanks rest with
        | '\x7d' :: rest => return ([(key, value)], rest)
        | ',' :: rest =>
          let (entries, rest) ← readEntries fuel rest
          return ((key, value) :: entries, rest)
        | _ => none
      | _ => none
    | _ => none

end

def parse (text : String) : Option Json := do
  let cs := text.toList
  let (value, rest) ← readValue (2 * cs.length + 2) cs
  if (skipBlanks rest).isEmpty then return value else none

end Linkage.Json
