import Linkage.Config.Basic
import Linkage.Source.File
import Linkage.Toml.Reader
/-!
Loading the settings of a project from its TOML file.
-/
namespace Linkage

inductive ConfigFailure where
  | unreadable (cause : LoadFailure)
  /-- The text is not TOML, or a value has the wrong type. -/
  | malformed
  /-- A setting that is needed is missing or empty. -/
  | missing (setting : String)
  | invalid (detail : String)
deriving DecidableEq

def ConfigFailure.message? : ConfigFailure → Option String
  | .missing setting => some s!"missing required field: {setting}"
  | .invalid detail => some s!"validation error: {detail}"
  | _ => none

def isWhiteSpace (c : Char) : Bool :=
  let n := c.toNat
  (9 ≤ n && n ≤ 13) || n == 0x20 || n == 0x85 || n == 0xA0 || n == 0x1680 ||
    (0x2000 ≤ n && n ≤ 0x200A) || n == 0x2028 || n == 0x2029 || n == 0x202F || n == 0x205F ||
    n == 0x3000

namespace Toml.Value

/-- The values of a record under its keys. A record is a table, or an array of the values in their
order. A moment has no such value. -/
def fields? (keys : List String) : Value → Option (List (Option Value))
  | .table entries => some (keys.map (entries.lookup ·))
  | .array items => some ((List.range keys.length).map (items[·]?))
  | .moment => some (keys.map fun _ => none)
  | _ => none

def str? : Value → Option String
  | .str s => some s
  | _ => none

def nat? : Value → Option Nat
  | .int i => if 0 ≤ i then some i.toNat else none
  | _ => none

def bool? : Value → Option Bool
  | .bool b => some b
  | _ => none

/-- A policy is given by its name, or by a table with the name as its only key and with nothing
under it. -/
def policy? : Value → Option RenamePolicy
  | .str word => RenamePolicy.ofWord? word
  | .table [(word, .table [])] => RenamePolicy.ofWord? word
  | .table [(word, .array [])] => RenamePolicy.ofWord? word
  | _ => none

def orElse {α : Type} (read : Value → Option α) (default : α) : Option Value → Option α
  | none => some default
  | some v => read v

end Toml.Value

namespace LinkOptions

open Toml.Value

def ofValue? (v : Toml.Value) : Option LinkOptions := do
  match ← v.fields? ["rename_policy", "namespace_prefix", "threads", "verify"] with
  | [policy, tagStem, threads, verify] =>
    return ⟨← orElse policy? standard.policy policy, ← orElse str? standard.tagStem tagStem,
      ← orElse nat? standard.threads threads, ← orElse bool? standard.verify verify⟩
  | _ => none

end LinkOptions

namespace Project

open Toml.Value

def ofEntries? (entries : List (String × Toml.Value)) : Option Project := do
  match ← (← entries.lookup "project").fields? ["name", "description"] with
  | [name, description] =>
    return ⟨← (← name).str?, ← orElse str? "" description,
      ← orElse LinkOptions.ofValue? .standard (entries.lookup "link")⟩
  | _ => none

def isTagChar (c : Char) : Bool := c.isAlphanum || c == '_'

def validate (p : Project) : Except ConfigFailure Project :=
  if p.name.toList.all isWhiteSpace then .error (.missing "project.name")
  else if p.link.tagStem.isEmpty then .error (.missing "link.namespace_prefix")
  else if p.link.tagStem.toList.all isTagChar then .ok p
  else .error (.invalid
    s!"link.namespace_prefix `{p.link.tagStem}` may only contain ASCII letters, digits and `_`")

def parse (text : String) : Except ConfigFailure Project :=
  match (Toml.parse text).bind ofEntries? with
  | none => .error .malformed
  | some p => p.validate

/-- The settings in a file, given its bytes, or nothing if there is no such file. -/
def load (bytes : Option ByteArray) : Except ConfigFailure Project :=
  match decodeFile bytes with
  | .error cause => .error (.unreadable cause)
  | .ok text => parse text

end Project

end Linkage
