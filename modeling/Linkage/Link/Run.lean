import Linkage.Config.Basic
import Linkage.Diagnostic.Log
import Linkage.Link.Declared
import Linkage.Link.NamePool
import Linkage.Link.Substitution
import Linkage.Link.SymbolUse
import Linkage.Link.Verdict
/-!
Linking the units of a design into one. Every unit gets a tag and is cleared of what declares
nothing; each name is judged, first of the modules, then of the classes; the definitions to be
told apart get fresh names, which every unit is rewritten to; and the units are moved into one.
-/
namespace Linkage

structure Summary where
  units : Nat
  debrisErased : Nat
  stubsErased : Nat
  renamesApplied : Nat
  declarations : Nat
deriving DecidableEq

def assignTags (stem : String) : Nat → Lexicon → List LinkUnit → List LinkUnit × Lexicon
  | _, lexicon, [] => ([], lexicon)
  | count, lexicon, u :: rest =>
    match u.tag with
    | some _ =>
      let (rest, lexicon) := assignTags stem count lexicon rest
      (u :: rest, lexicon)
    | none =>
      let (tag, lexicon) := lexicon.intern (NamePool.numbered stem count)
      let (rest, lexicon) := assignTags stem (count + 1) lexicon rest
      ({ u with tag := some tag } :: rest, lexicon)

def mergeUnits (units : List LinkUnit) : Checked LinkUnit :=
  units.foldlM LinkUnit.splice (.new ⟨0⟩ none .dummy)

structure Catalogue where
  classes : Occurrences
  modules : Occurrences
  pool : NamePool

namespace Catalogue

def addUnit (lexicon : Lexicon) (c : Catalogue) (declared : Declared) (unit : Nat) :
    Checked Catalogue := do
  let c ← declared.classes.foldlM (fun c d => do
    let text ← lexicon.text d.name
    return { c with
      classes := c.classes.insert d.name ⟨unit, d.op⟩
      pool := c.pool.reserve text }) c
  declared.modules.foldlM (fun c d => do
    let text ← lexicon.text d.name
    return { c with
      modules := c.modules.insert d.name ⟨unit, d.op⟩
      pool := c.pool.reserve text }) c

def ofDeclared (lexicon : Lexicon) (units : List Declared) : Checked Catalogue :=
  units.zipIdx.foldlM (fun c (declared, unit) => c.addUnit lexicon declared unit)
    ⟨.empty, .empty, .empty⟩

end Catalogue

structure Naming where
  renames : Renaming
  pool : NamePool
  lexicon : Lexicon

namespace Naming

def freshen (n : Naming) (name : Name) (unit : Nat) (suffix : Option String) :
    Checked Naming := do
  let base ← n.lexicon.text name
  let (text, pool) := n.pool.allocate base suffix
  let (new, lexicon) := n.lexicon.intern text
  return ⟨n.renames.insert unit name new, pool, lexicon⟩

end Naming

def RenamePolicy.select (policy : RenamePolicy) (sites : List Site) : List Site :=
  match policy with
  | .keepFirst => sites.drop 1
  | .renameAll => sites

def tagText (units : List LinkUnit) (lexicon : Lexicon) (unit : Nat) : Linking String :=
  match units[unit]? with
  | none => .broken s!"missing unit #{unit}"
  | some u =>
    match u.tag with
    | none => .broken s!"unit #{unit} has no namespace tag"
    | some tag => Linking.ofChecked (lexicon.text tag)

def Court.after (c : Court) (naming : Naming) : Court := { c with lexicon := naming.lexicon }

def Court.nameModule (c : Court) (policy : RenamePolicy) (naming : Naming)
    (entry : Name × List Site) : Linking Naming := do
  let (name, sites) := entry
  if ← (c.after naming).judgeModule name sites then
    (policy.select sites).foldlM (fun naming site =>
      Linking.ofChecked (naming.freshen name site.unit none)) naming
  else return naming

/-- Judges a class name. The fresh names of classes end in the tags of their units. -/
def Court.nameClass (c : Court) (policy : RenamePolicy) (naming : Naming)
    (entry : Name × List Site) : Linking Naming := do
  let (name, sites) := entry
  if ← (c.after naming).judgeClass name sites then
    (policy.select sites).foldlM (fun naming site => do
      let tag ← tagText c.units naming.lexicon site.unit
      Linking.ofChecked (naming.freshen name site.unit (some tag))) naming
  else return naming

def Court.nameAll (c : Court) (policy : RenamePolicy) (declared : List Declared) :
    Linking Naming := do
  let catalogue ← Linking.ofChecked (Catalogue.ofDeclared c.lexicon declared)
  let naming ← catalogue.modules.entries.foldlM (c.nameModule policy)
    ⟨.empty, catalogue.pool, c.lexicon⟩
  catalogue.classes.entries.foldlM (c.nameClass policy) naming

structure Linked where
  result : Except LinkFailure Summary
  design : Design
  lexicon : Lexicon
  log : Log

def Rejection.linked (r : Rejection) (design : Design) (lexicon : Lexicon) (log : Log) : Linked :=
  ⟨.error r.failure, design, lexicon, log.emitAll r.report⟩

/-- Moves rewritten units into one and checks it, if wanted. The units are gone if it uses a name
wrongly. -/
def finish (verify : Bool) (design : Design) (summary : Nat → Summary) (lexicon : Lexicon)
    (log : Log) : Checked Linked := do
  let merged ← mergeUnits design.units
  let misuses ← if verify then merged.misuses design.types lexicon else pure []
  match misuses with
  | first :: _ =>
    let text ← lexicon.text first.name
    let rejection : Rejection := ⟨.misuse text, misuses.map (·.report)⟩
    return rejection.linked { design with units := [] } lexicon log
  | [] =>
    return ⟨.ok (summary merged.body.length), { design with units := [merged] }, lexicon, log⟩

def total {α : Type} (count : α → Nat) : List α → Nat
  | [] => 0
  | a :: rest => count a + total count rest

/-- Links all units of a design. If this fails, the log says why. A design in which a name was
turned down keeps its units, each with its tag and without what declares nothing. -/
def linkUnits (options : LinkOptions) (design : Design) (lexicon : Lexicon) (log : Log) :
    Checked Linked := do
  let (units, lexicon) := assignTags options.tagStem 0 lexicon design.units
  let collected ← units.mapM LinkUnit.collect
  let design : Design := { design with units := collected.map (·.unit) }
  let court : Court := ⟨design.units, design.types, lexicon⟩
  match court.nameAll options.policy (collected.map (·.declared)) with
  | .error (.fault fault) => .error fault
  | .error (.rejected rejection) => return rejection.linked design lexicon log
  | .ok naming =>
    let (_, counts, design) ← design.rewrite naming.renames
    let summary (declarations : Nat) : Summary :=
      { units := design.units.length
        debrisErased := total (·.debris) collected
        stubsErased := total (·.stubsErased) counts
        renamesApplied := total (·.renamesApplied) counts
        declarations }
    finish options.verify design summary naming.lexicon log

/-- What the units are worked on with: for a number of threads, it starts that many workers or says
what is in the way. For none it starts as many as suit the machine. -/
structure WorkerPool where
  start : Nat → Except String Unit

/-- Links all units of a design once the workers for it are there. Without them nothing is done, and
the failure that says so is not in the log. -/
def link (pool : WorkerPool) (options : LinkOptions) (design : Design) (lexicon : Lexicon)
    (log : Log) : Checked Linked :=
  match pool.start options.threads with
  | .ok () => linkUnits options design lexicon log
  | .error reason =>
    let rejection : Rejection := ⟨.broken s!"failed to start link workers: {reason}", []⟩
    return rejection.linked design lexicon log

end Linkage
