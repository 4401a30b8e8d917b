import Linkage.Op
/-!
Where each name is declared, over all units. Names stand in the order of their first occurrence.
-/
namespace Linkage

/-- A declaration: the position of its unit in the design, and its operation. -/
structure Site where
  unit : Nat
  op : OpId
deriving DecidableEq

structure Occurrences where
  entries : List (Name × List Site)

namespace Occurrences

def empty : Occurrences := ⟨[]⟩

def insertInto (name : Name) (site : Site) : List (Name × List Site) → List (Name × List Site)
  | [] => [(name, [site])]
  | (key, sites) :: rest =>
    if key = name then (key, sites ++ [site]) :: rest
    else (key, sites) :: insertInto name site rest

def insert (o : Occurrences) (name : Name) (site : Site) : Occurrences :=
  ⟨insertInto name site o.entries⟩

def get (o : Occurrences) (name : Name) : List Site := (o.entries.lookup name).getD []

def size (o : Occurrences) : Nat := o.entries.length

def collisions (o : Occurrences) : List Name :=
  (o.entries.filter fun (_, sites) => sites.length > 1).map (·.1)

theorem lookup_insertInto (name other : Name) (site : Site) (entries : List (Name × List Site)) :
    (insertInto name site entries).lookup other =
      if other = name then some ((entries.lookup name).getD [] ++ [site])
      else entries.lookup other := by
  induction entries with
  | nil =>
    simp only [insertInto, List.lookup_cons, List.lookup_nil, Option.getD_none, List.nil_append]
    by_cases h : other = name
    · rw [if_pos h, beq_iff_eq.2 h]
    · rw [if_neg h, beq_eq_false_iff_ne.2 h]
  | cons entry rest ih =>
    obtain ⟨key, sites⟩ := entry
    unfold insertInto
    by_cases hk : key = name
    · subst hk
      rw [if_pos rfl]
      by_cases h : other = key
      · simp only [h, List.lookup_cons, beq_self_eq_true, if_true, Option.getD_some]
      · simp only [List.lookup_cons, beq_eq_false_iff_ne.2 h, if_neg h]
    · rw [if_neg hk]
      by_cases h : other = key
      · subst h
        simp only [List.lookup_cons, beq_self_eq_true, if_neg hk]
      · simp only [List.lookup_cons, beq_eq_false_iff_ne.2 h, ih,
          beq_eq_false_iff_ne.2 (Ne.symm hk)]

theorem get_insert (o : Occurrences) (name other : Name) (site : Site) :
    (o.insert name site).get other =
      if other = name then o.get name ++ [site] else o.get other := by
  simp only [get, insert, lookup_insertInto]
  split
  · rfl
  · rfl

end Occurrences

end Linkage
