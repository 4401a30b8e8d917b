import Linkage.Proofs.Catalogues
import Linkage.Proofs.SymbolUses
/-!
The order in which names come up. The catalogue of a design lists each name once, where it is
declared first, and takes the texts of names in the order in which they are declared.
-/
namespace Linkage

theorem distinct_concat (names : List Name) (name : Name) :
    distinct (names ++ [name]) =
      if name ∈ names then distinct names else distinct names ++ [name] := by
  induction names with
  | nil => rfl
  | cons first rest ih =>
    simp only [List.cons_append, distinct, ih, List.mem_cons]
    by_cases same : name = first
    · subst same
      split <;> simp
    · by_cases before : name ∈ rest
      · simp [before]
      · simp [before, same]

theorem distinct_ordered (names : List Name) :
    (distinct names).Pairwise fun a b => names.idxOf a < names.idxOf b := by
  induction names with
  | nil => exact List.Pairwise.nil
  | cons first rest ih =>
    have later : ∀ {name}, name ∈ (distinct rest).filter (· ≠ first) →
        (first :: rest).idxOf name = rest.idxOf name + 1 := by
      intro name hname
      have other : name ≠ first := of_decide_eq_true (List.mem_filter.mp hname).2
      exact List.idxOf_cons_ne rest (Ne.symm other)
    rw [distinct, List.pairwise_cons]
    constructor
    · intro name hname
      rw [later hname, List.idxOf_cons_self]
      exact Nat.succ_pos _
    · apply List.Pairwise.imp_of_mem _ (ih.filter _)
      intro a b ha hb before
      rw [later ha, later hb]
      exact Nat.succ_lt_succ before

theorem entries_eq_map_names {entries : List (Name × List Site)} {found : Name → List Site}
    (h : ∀ entry ∈ entries, entry.2 = found entry.1) :
    entries = (entries.map Prod.fst).map fun name => (name, found name) := by
  have same : ∀ entry ∈ entries, entry = (entry.1, found entry.1) :=
    fun entry hentry => Prod.ext rfl (h entry hentry)
  rw [List.map_map]
  exact (List.map_id' _).symm.trans (List.map_congr_left same)

namespace Occurrences

variable {names : List Name}

theorem keys_insertInto (name : Name) (site : Site) (entries : List (Name × List Site)) :
    (insertInto name site entries).map (·.1) =
      if name ∈ entries.map (·.1) then entries.map (·.1) else entries.map (·.1) ++ [name] := by
  induction entries with
  | nil => rfl
  | cons entry rest ih =>
    obtain ⟨key, sites⟩ := entry
    unfold insertInto
    by_cases same : key = name
    · simp [same]
    · have differ : ¬ name = key := Ne.symm same
      simp only [if_neg same, List.map_cons, ih, List.mem_cons, differ, false_or]
      split
      · rfl
      · rfl

theorem keys_insert {o : Occurrences} (h : o.entries.map (·.1) = distinct names) (name : Name)
    (site : Site) : (o.insert name site).entries.map (·.1) = distinct (names ++ [name]) := by
  simp only [insert, keys_insertInto, distinct_concat, h, mem_distinct]

theorem keys_enter {o : Occurrences} (h : o.entries.map (·.1) = distinct names) (unit : Nat)
    (ds : List Declaration) :
    (o.enter unit ds).entries.map (·.1) = distinct (names ++ ds.map (·.name)) := by
  induction ds generalizing o names with
  | nil => simpa [enter] using h
  | cons d rest ih =>
    have step := ih (keys_insert h d.name ⟨unit, d.op⟩)
    simpa [enter] using step

end Occurrences

namespace Catalogue

theorem keys_enterAll (space : Space) (entries : List (Declared × Nat)) {o : Occurrences}
    {names : List Name} (h : o.entries.map (·.1) = distinct names) :
    (entries.foldl (fun o (declared, unit) => o.enter unit (declared.of space)) o).entries.map
        (·.1) = distinct (names ++ entries.flatMap fun e => (e.1.of space).map (·.name)) := by
  induction entries generalizing o names with
  | nil => simpa using h
  | cons entry rest ih =>
    obtain ⟨declared, unit⟩ := entry
    have step := ih (Occurrences.keys_enter h unit (declared.of space))
    simpa using step

def names (declared : List Declared) (space : Space) : List Name :=
  distinct (declared.flatMap fun d => (d.of space).map (·.name))

theorem keys_table (units : List Declared) (space : Space) :
    (table units space).entries.map (·.1) = names units space := by
  have order : units.zipIdx.flatMap (fun e => (e.1.of space).map (·.name)) =
      units.flatMap fun declared => (declared.of space).map (·.name) := by
    conv => rhs; rw [← List.zipIdx_map_fst 0 units, List.flatMap_map]
  have keys := keys_enterAll space units.zipIdx
    (show Occurrences.empty.entries.map (·.1) = distinct [] from rfl)
  rwa [List.nil_append, order] at keys

/-- The entries are the names in the order in which they come up, each with its declarations. -/
theorem entries_table (units : List Declared) (space : Space) :
    (table units space).entries =
      (names units space).map fun name => (name, sites units space name) := by
  have filled : ∀ entry ∈ (table units space).entries, entry.2 = sites units space entry.1 :=
    fun entry hentry => (mem_entries_iff.mp hentry).1.symm
  exact (entries_eq_map_names filled).trans (congrArg (List.map _) (keys_table units space))

variable {declared : List Declared} {space : Space} {name : Name}

theorem mem_roll_of_mem_names (h : name ∈ names declared space) : name ∈ declared.flatMap roll := by
  rw [names, mem_distinct] at h
  obtain ⟨d, hd, hname⟩ := List.mem_flatMap.mp h
  obtain ⟨declaration, hdeclaration, rfl⟩ := List.mem_map.mp hname
  exact List.mem_flatMap.mpr ⟨d, hd, mem_roll.mpr ⟨space, declaration, hdeclaration, rfl⟩⟩

theorem sites_ne_nil_of_mem_names (h : name ∈ names declared space) :
    sites declared space name ≠ [] := by
  have entry : (name, sites declared space name) ∈ (table declared space).entries :=
    entries_table declared space ▸ List.mem_map_of_mem h
  exact (mem_entries_iff.mp entry).2

end Catalogue

/-- The names of the modules, then those of the classes. -/
def docket (names : Space → List Name) : List (Space × Name) :=
  (names .modules).map (.modules, ·) ++ (names .classes).map (.classes, ·)

theorem mem_docket {names : Space → List Name} {space : Space} {name : Name} :
    (space, name) ∈ docket names ↔ name ∈ names space := by
  cases space <;> simp [docket]

end Linkage
