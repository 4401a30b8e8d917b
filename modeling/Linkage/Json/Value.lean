/-!
JSON values as this library uses them: every number is an integer.
-/
namespace Linkage

inductive Json where
  | null
  | bool (b : Bool)
  | int (i : Int)
  | str (s : String)
  | arr (items : List Json)
  | obj (fields : List (String × Json))
  /-- Well-formed text that no value of this library is written as: a number with a fraction or
  an exponent, a negative zero, or a string or an object key with half of a surrogate pair. -/
  | foreign
deriving Inhabited

namespace Json

def nat (n : Nat) : Json := .int n

def ofOption {α : Type} (f : α → Json) : Option α → Json
  | none => .null
  | some a => f a

def field? (j : Json) (key : String) : Option Json :=
  match j with
  | .obj fields => fields.lookup key
  | _ => none

end Json

end Linkage
