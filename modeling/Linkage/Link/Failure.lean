/-!
Why a link produced nothing.
-/
namespace Linkage

/-- The two kinds of declarations. Their names are resolved apart. -/
inductive Space where
  | classes
  | modules
deriving DecidableEq

def Space.word : Space → String
  | .classes => "class"
  | .modules => "module"

inductive LinkFailure where
  /-- Several modules of one name, one of them exported. -/
  | ambiguous (name : String)
  /-- A stub, and not one definition but the given number of them. -/
  | unresolved (space : Space) (name : String) (definitions : Nat)
  | mismatch (space : Space) (name : String)
  /-- A stub of a class that leaves out a field. -/
  | uncovered (name field : String)
  | misuse (name : String)
  | broken (detail : String)
deriving DecidableEq

def LinkFailure.message : LinkFailure → String
  | .ambiguous name => s!"module `{name}` has multiple public definitions"
  | .unresolved space name definitions =>
    s!"{space.word} `{name}` is declared as external but has {definitions} definitions"
  | .mismatch space name => s!"{space.word} `{name}` declaration doesn't match the definition"
  | .uncovered name field => s!"declaration of class `{name}` does not cover field `{field}`"
  | .misuse name => s!"invalid use of symbol `{name}` in the linked design"
  | .broken detail => s!"internal compiler error: {detail}"

end Linkage
