/-!
The settings of a project.
-/
namespace Linkage

inductive RenamePolicy where
  | keepFirst
  | renameAll
deriving DecidableEq

def RenamePolicy.word : RenamePolicy → String
  | .keepFirst => "keep-first"
  | .renameAll => "rename-all"

def RenamePolicy.ofWord? (word : String) : Option RenamePolicy :=
  [RenamePolicy.keepFirst, RenamePolicy.renameAll].find? (·.word = word)

structure LinkOptions where
  policy : RenamePolicy
  /-- What the tags of units without a tag start with. -/
  tagStem : String
  /-- How many workers are started for a link, or none to leave that to the pool. -/
  threads : Nat
  verify : Bool
deriving DecidableEq

def LinkOptions.standard : LinkOptions := ⟨.keepFirst, "module", 0, true⟩

structure Project where
  name : String
  description : String
  link : LinkOptions
deriving DecidableEq

end Linkage
