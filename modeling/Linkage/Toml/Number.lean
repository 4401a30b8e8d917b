import Linkage.Word
/-!
The numbers of TOML, each given as its whole text.
-/
namespace Linkage.Toml

/-- The digits of a number in which single underscores may stand between digits. -/
def ungroup (isDigit : Char → Bool) : List Char → Option (List Char)
  | [] => none
  | [c] => if isDigit c then some [c] else none
  | c :: '_' :: rest => if isDigit c then (ungroup isDigit rest).map (c :: ·) else none
  | c :: rest => if isDigit c then (ungroup isDigit rest).map (c :: ·) else none

def digitValue (c : Char) : Nat :=
  if c.isDigit then c.toNat - 48 else if 'a' ≤ c then c.toNat - 87 else c.toNat - 55

def valueInBase (base : Nat) (digits : List Char) : Nat :=
  digits.foldl (fun n c => n * base + digitValue c) 0

def isDigitIn (base : Nat) (c : Char) : Bool :=
  (c.isDigit || ('a' ≤ c && c ≤ 'f') || ('A' ≤ c && c ≤ 'F')) && digitValue c < base

def splitSign : List Char → Bool × List Char
  | '-' :: rest => (true, rest)
  | '+' :: rest => (false, rest)
  | cs => (false, cs)

/-- The digits of a whole decimal number without a sign. It has no leading zeros. -/
def wholeDigits? (cs : List Char) : Option (List Char) := do
  let digits ← ungroup Char.isDigit cs
  if digits.length > 1 && digits.head? == some '0' then none else return digits

def int64? (i : Int) : Option Int := if fitsInt64 i then some i else none

/-- The integer that a text writes. In another base than ten it has no sign. -/
def integer? (cs : List Char) : Option Int :=
  let inBase (base : Nat) (digits : List Char) : Option Int := do
    let digits ← ungroup (isDigitIn base) digits
    int64? (valueInBase base digits)
  match cs with
  | '0' :: 'x' :: rest => inBase 16 rest
  | '0' :: 'o' :: rest => inBase 8 rest
  | '0' :: 'b' :: rest => inBase 2 rest
  | cs => do
    let (negative, rest) := splitSign cs
    let n : Int := valueInBase 10 (← wholeDigits? rest)
    int64? (if negative then -n else n)

def exponent? : List Char → Option Int
  | [] => some 0
  | _ :: cs => do
    let (negative, rest) := splitSign cs
    let n : Int := valueInBase 10 (← ungroup Char.isDigit rest)
    return if negative then -n else n

/-- Whether `n * 10 ^ e` is too large for a number in 64 binary digits: it would be rounded to
`2 ^ 1024` or more. -/
def overflows (n : Nat) (e : Int) : Bool :=
  let bound := wordBound 1024 - wordBound 970
  let size : Int := (toString n).length + e
  if n = 0 || size < 300 then false
  else if size > 320 then true
  else if e < 0 then n ≥ bound * Nat.pow 10 (-e).toNat
  else n * Nat.pow 10 e.toNat ≥ bound

/-- Whether a text writes a number with a fraction, an exponent or both, or one that is not finite.
Only a positive number can be too large. -/
def isFloat (cs : List Char) : Bool :=
  let (negative, rest) := splitSign cs
  if rest = ['i', 'n', 'f'] || rest = ['n', 'a', 'n'] then true
  else
    let isExponentMark (c : Char) : Bool := c == 'e' || c == 'E'
    let mantissa := rest.takeWhile (!isExponentMark ·)
    let exponent := rest.dropWhile (!isExponentMark ·)
    let whole := mantissa.takeWhile (· != '.')
    let fraction := mantissa.dropWhile (· != '.')
    let fractionDigits := match fraction with
      | [] => some []
      | _ :: digits => ungroup Char.isDigit digits
    match wholeDigits? whole, fractionDigits, exponent? exponent with
    | some whole, some digits, some e =>
      (!fraction.isEmpty || !exponent.isEmpty) &&
        (negative || !overflows (valueInBase 10 (whole ++ digits)) (e - digits.length))
    | _, _, _ => false

end Linkage.Toml
