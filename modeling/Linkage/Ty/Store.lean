import Linkage.Checked
import Linkage.Ty.Basic
/-!
The store of types that all units of a design share. A type is stored by interning, which answers
with the id it already has if there is one, so that equal ids stand for equal types.
-/
namespace Linkage

structure TyStore where
  types : Array Ty

namespace TyStore

def empty : TyStore := ⟨#[]⟩

def ofList (types : List Ty) : TyStore := ⟨types.toArray⟩

def toList (s : TyStore) : List Ty := s.types.toList

def size (s : TyStore) : Nat := s.types.size

def isEmpty (s : TyStore) : Bool := s.types.isEmpty

def ids (s : TyStore) : List TyId := (List.range s.size).map TyId.mk

def get (s : TyStore) (id : TyId) : Checked Ty :=
  match s.types[id.index]? with
  | some ty => .ok ty
  | none => .error (.unknownType id.index)

/-- The id of a type. Of several it is the last one. -/
def lookup (s : TyStore) (ty : Ty) : Option TyId :=
  s.ids.reverse.find? fun id => s.types[id.index]? == some ty

def intern (s : TyStore) (ty : Ty) : TyId × TyStore :=
  match s.lookup ty with
  | some id => (id, s)
  | none => (⟨s.size⟩, ⟨s.types.push ty⟩)

/-- The fuel for going through all the parts of a type, which is enough if no type contains
itself: no path through the store is longer. -/
def depth (s : TyStore) : Nat := s.size + 1

def classesWithin (s : TyStore) : Nat → TyId → Checked (List Name)
  | 0, _ => .error .endless
  | fuel + 1, id => do
    match ← s.get id with
    | .instanceOf name => return [name]
    | ty => return (← ty.parts.mapM (s.classesWithin fuel)).flatten

def classes (s : TyStore) (id : TyId) : Checked (List Name) := s.classesWithin s.depth id

def displayWithin (s : TyStore) (lexicon : Lexicon) : Nat → TyId → Checked String
  | 0, _ => .error .endless
  | fuel + 1, id => do
    match ← s.get id with
    | .word width true => return s!"si{width}"
    | .word width false => return s!"i{width}"
    | .integer => return "integer"
    | .bool => return "bool"
    | .str => return "string"
    | .path => return "path"
    | .any => return "any"
    | .instanceOf name => do
      let name ← lexicon.text name
      return s!"class<@{name}>"
    | .list element => do
      let element ← s.displayWithin lexicon fuel element
      return s!"list<{element}>"
    | .map key value => do
      let key ← s.displayWithin lexicon fuel key
      let value ← s.displayWithin lexicon fuel value
      return s!"map<{key}, {value}>"
    | .tuple elements => do
      let elements ← elements.mapM (s.displayWithin lexicon fuel)
      let inner := ", ".intercalate elements
      return s!"tuple<{inner}>"

def display (s : TyStore) (lexicon : Lexicon) (id : TyId) : Checked String :=
  s.displayWithin lexicon s.depth id

def substituteWithin (rename : Name → Option Name) : Nat → TyStore → TyId → Checked (TyId × TyStore)
  | 0, _, _ => .error .endless
  | fuel + 1, s, id => do
    match ← s.get id with
    | .instanceOf name =>
      match rename name with
      | some new => if new = name then return (id, s) else return s.intern (.instanceOf new)
      | none => return (id, s)
    | ty =>
      let (parts, s) ← mapAccumM (substituteWithin rename fuel) s ty.parts
      if parts = ty.parts then return (id, s) else return s.intern (ty.withParts parts)

/-- The id of a type after its classes are renamed, and the store with the types this needs. A
type in which nothing changes keeps its id. -/
def substitute (s : TyStore) (rename : Name → Option Name) (id : TyId) : Checked (TyId × TyStore) :=
  substituteWithin rename s.depth s id

theorem get_of_lookup {s : TyStore} {ty : Ty} {id : TyId} (h : s.lookup ty = some id) :
    s.get id = .ok ty := by
  have found := List.find?_some h
  simp only [beq_iff_eq] at found
  simp only [get, found]

theorem get_intern (s : TyStore) (ty : Ty) : (s.intern ty).2.get (s.intern ty).1 = .ok ty := by
  unfold intern
  split
  · next id h => exact get_of_lookup h
  · simp only [get, size, Array.getElem?_push_size]

theorem get_intern_of_get {s : TyStore} {id : TyId} {found : Ty} (h : s.get id = .ok found)
    (ty : Ty) : (s.intern ty).2.get id = .ok found := by
  unfold intern
  split
  · exact h
  · unfold get at h
    split at h
    · next t ht =>
      cases h
      have hlt := (Array.getElem?_eq_some_iff.1 ht).1
      simp only [get, Array.getElem?_push_lt hlt, (Array.getElem?_eq_some_iff.1 ht).2]
    · cases h

end TyStore

end Linkage
