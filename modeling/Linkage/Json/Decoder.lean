import Linkage.Json.Value
import Linkage.Word
/-!
Turning JSON values into values of a given type. A decoder is given the number of levels it may
still go down; each array and each object that it opens uses up one.

A record is an object with a value under every key, other keys being ignored, or an array of the
values in their fixed order. A choice is the name of a case without contents, or an object with
one field, whose key names the case.
-/
namespace Linkage.Json

abbrev Decoder (α : Type) := Nat → Json → Option α

def depthLimit : Nat := 127

def enter : Nat → Option Nat
  | 0 => none
  | depth + 1 => some depth

namespace Decoder

def run {α : Type} (d : Decoder α) (j : Json) : Option α := d depthLimit j

protected def map {α β : Type} (f : α → β) (d : Decoder α) : Decoder β :=
  fun depth j => (d depth j).map f

def boolean : Decoder Bool
  | _, .bool b => some b
  | _, _ => none

def text : Decoder String
  | _, .str s => some s
  | _, _ => none

def word (bits : Nat) : Decoder Nat
  | _, .int i => if 0 ≤ i ∧ i < wordBound bits then some i.toNat else none
  | _, _ => none

def int64 : Decoder Int
  | _, .int i => if fitsInt64 i then some i else none
  | _, _ => none

def option {α : Type} (d : Decoder α) : Decoder (Option α)
  | _, .null => some none
  | depth, j => (d depth j).map some

def many {α : Type} (d : Decoder α) : Decoder (List α)
  | depth, .arr items => do
    let depth ← enter depth
    items.mapM (d depth)
  | _, _ => none

/-- The values of an object under the given keys. No key may have two values. -/
def select (fields : List (String × Json)) : List String → Option (List (Option Json))
  | [] => some []
  | key :: keys => do
    let found ← match fields.filter (·.1 == key) with
      | [] => some none
      | [(_, value)] => some (some value)
      | _ => none
    let rest ← select fields keys
    return found :: rest

def recordOf (keys : List String) : Nat → Json → Option (Nat × List (Option Json))
  | depth, .obj fields => do
    let depth ← enter depth
    let values ← select fields keys
    return (depth, values)
  | depth, .arr items => do
    let depth ← enter depth
    if items.length = keys.length then return (depth, items.map some) else none
  | _, _ => none

def required {α : Type} (d : Decoder α) (depth : Nat) (j : Option Json) : Option α :=
  j.bind (d depth)

def choice : Nat → Json → Option (String × Option Json × Nat)
  | depth, .str tag => some (tag, none, depth)
  | depth, .obj [(tag, value)] => do
    let depth ← enter depth
    return (tag, some value, depth)
  | _, _ => none

def noContents : Option Json → Option Unit
  | none => some ()
  | some .null => some ()
  | _ => none

end Decoder

end Linkage.Json
