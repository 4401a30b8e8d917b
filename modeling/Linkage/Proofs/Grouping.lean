import Linkage.Proofs.RollCall
import Mathlib.Data.Finset.Card
import Mathlib.Data.List.Induction
/-!
Names grouped with their declarations. Whatever is inserted, and however new names and known ones
alternate, a table lists each name once, where it came up first, with the declarations inserted
under it. The order of the names and the map to their declarations may as well be kept apart: the
two stay in step, and the answers are the same.
-/
namespace Linkage

abbrev Insertions := List (Name × Site)

namespace Insertions

def names (insertions : Insertions) : List Name := insertions.map Prod.fst

def under (insertions : Insertions) (name : Name) : List Site :=
  (insertions.filter (·.1 = name)).map Prod.snd

theorem names_concat (insertions : Insertions) (name : Name) (site : Site) :
    names (insertions ++ [(name, site)]) = insertions.names ++ [name] := by
  simp [names]

theorem under_concat (insertions : Insertions) (name other : Name) (site : Site) :
    under (insertions ++ [(name, site)]) other =
      if other = name then insertions.under name ++ [site] else insertions.under other := by
  by_cases same : other = name
  · simp [under, same]
  · simp [under, same, Ne.symm same]

theorem length_under (insertions : Insertions) (name : Name) :
    (insertions.under name).length = insertions.names.count name := by
  rw [under, names, List.length_map, List.count, List.countP_map, List.countP_eq_length_filter]
  rfl

theorem under_eq_nil {insertions : Insertions} {name : Name} (h : name ∉ insertions.names) :
    insertions.under name = [] := by
  have none_found : (insertions.under name).length = 0 := by
    rw [length_under, List.count_eq_zero.mpr h]
  exact List.length_eq_zero_iff.mp none_found

end Insertions

@[ext]
structure Roster where
  listed : List (Name × List Site)
  get : Name → List Site
  size : Nat
  collisions : List Name

namespace Roster

def names (r : Roster) : List Name := r.listed.map Prod.fst

/-- The answers are the insertions, grouped by their names without a change of order. -/
structure Groups (r : Roster) (insertions : Insertions) : Prop where
  once : r.names.Nodup
  named : ∀ name, name ∈ r.names ↔ name ∈ insertions.names
  /-- A name stands before another if it was inserted before it for the first time. -/
  ordered : r.names.Pairwise fun a b => insertions.names.idxOf a < insertions.names.idxOf b
  filled : ∀ entry ∈ r.listed, entry.2 = insertions.under entry.1
  /-- Nothing is lost, nothing comes twice and nothing goes to another name. -/
  kept : (r.listed.flatMap fun entry => entry.2.map (entry.1, ·)).Perm insertions
  got : ∀ entry ∈ r.listed, r.get entry.1 = entry.2
  unknown : ∀ name ∉ insertions.names, r.get name = []
  size : r.size = insertions.names.toFinset.card
  collisions : r.collisions = r.names.filter fun name => 2 ≤ insertions.names.count name

variable {r r' : Roster} {insertions : Insertions}

theorem Groups.get_eq (h : r.Groups insertions) (name : Name) :
    r.get name = insertions.under name := by
  by_cases known : name ∈ insertions.names
  · obtain ⟨entry, hentry, rfl⟩ := List.mem_map.mp ((h.named name).mpr known)
    exact (h.got entry hentry).trans (h.filled entry hentry)
  · exact (h.unknown name known).trans (Insertions.under_eq_nil known).symm

/-- The first insertions of the names fix their order. -/
theorem Groups.names_eq (h : r.Groups insertions) (h' : r'.Groups insertions) :
    r.names = r'.names := by
  have members : r.names.Perm r'.names := (List.perm_ext_iff_of_nodup h.once h'.once).mpr
    fun name => (h.named name).trans (h'.named name).symm
  exact members.eq_of_pairwise
    (fun _ _ _ _ before after => absurd before (Nat.lt_asymm after)) h.ordered h'.ordered

/-- There is one way to group insertions. -/
theorem Groups.unique (h : r.Groups insertions) (h' : r'.Groups insertions) : r = r' := by
  have names := h.names_eq h'
  ext1
  · calc r.listed
        = r.names.map fun name => (name, insertions.under name) := entries_eq_map_names h.filled
      _ = r'.names.map fun name => (name, insertions.under name) := by rw [names]
      _ = r'.listed := (entries_eq_map_names h'.filled).symm
  · exact funext fun name => (h.get_eq name).trans (h'.get_eq name).symm
  · exact h.size.trans h'.size.symm
  · rw [h.collisions, h'.collisions, names]

end Roster

/-! One list of entries -/

namespace Occurrences

def ofInsertions (insertions : Insertions) : Occurrences :=
  insertions.foldl (fun o (name, site) => o.insert name site) .empty

def roster (o : Occurrences) : Roster := ⟨o.entries, o.get, o.size, o.collisions⟩

theorem ofInsertions_concat (insertions : Insertions) (name : Name) (site : Site) :
    ofInsertions (insertions ++ [(name, site)]) = (ofInsertions insertions).insert name site := by
  simp [ofInsertions]

-- A table is made from the front, and an insertion is its last change: the inductions on the
-- insertions take off the last one.
theorem proper_ofInsertions (insertions : Insertions) : (ofInsertions insertions).Proper := by
  induction insertions using List.reverseRecOn with
  | nil => exact proper_empty
  | append_singleton before last ih =>
    obtain ⟨name, site⟩ := last
    rw [ofInsertions_concat]
    exact ih.insert name site

theorem keys_ofInsertions (insertions : Insertions) :
    (ofInsertions insertions).entries.map (·.1) = distinct insertions.names := by
  induction insertions using List.reverseRecOn with
  | nil => rfl
  | append_singleton before last ih =>
    obtain ⟨name, site⟩ := last
    rw [ofInsertions_concat, Insertions.names_concat]
    exact keys_insert ih name site

theorem get_ofInsertions (insertions : Insertions) (name : Name) :
    (ofInsertions insertions).get name = insertions.under name := by
  induction insertions using List.reverseRecOn generalizing name with
  | nil => rfl
  | append_singleton before last ih =>
    obtain ⟨new, site⟩ := last
    rw [ofInsertions_concat, get_insert, Insertions.under_concat, ih, ih]

theorem flatMap_insertInto_perm (name : Name) (site : Site) (entries : List (Name × List Site)) :
    ((insertInto name site entries).flatMap fun entry => entry.2.map (entry.1, ·)).Perm
      ((entries.flatMap fun entry => entry.2.map (entry.1, ·)) ++ [(name, site)]) := by
  induction entries with
  | nil => simp [insertInto]
  | cons entry rest ih =>
    obtain ⟨key, sites⟩ := entry
    unfold insertInto
    split
    · next same =>
      subst same
      simp only [List.flatMap_cons, List.map_append, List.map_singleton, List.append_assoc]
      exact List.perm_append_comm.append_left _
    · simp only [List.flatMap_cons, List.append_assoc]
      exact ih.append_left _

theorem kept_ofInsertions (insertions : Insertions) :
    ((ofInsertions insertions).entries.flatMap fun entry => entry.2.map (entry.1, ·)).Perm
      insertions := by
  induction insertions using List.reverseRecOn with
  | nil => exact List.Perm.refl _
  | append_singleton before last ih =>
    obtain ⟨name, site⟩ := last
    rw [ofInsertions_concat]
    exact (flatMap_insertInto_perm name site _).trans (ih.append_right _)

theorem Proper.got {o : Occurrences} (h : o.Proper) {entry : Name × List Site}
    (hentry : entry ∈ o.entries) : o.get entry.1 = entry.2 :=
  (h.mem_iff.mp hentry).1

theorem Proper.mem_keys_iff {o : Occurrences} (h : o.Proper) {name : Name} :
    name ∈ o.entries.map (·.1) ↔ o.get name ≠ [] := by
  constructor
  · intro listed
    obtain ⟨entry, hentry, rfl⟩ := List.mem_map.mp listed
    rw [h.got hentry]
    exact h.inhabited entry hentry
  · intro found
    exact List.mem_map.mpr ⟨(name, o.get name), h.mem_iff.mpr ⟨rfl, found⟩, rfl⟩

theorem mem_keys_ofInsertions (insertions : Insertions) (name : Name) :
    name ∈ (ofInsertions insertions).entries.map (·.1) ↔ name ∈ insertions.names := by
  rw [keys_ofInsertions, mem_distinct]

theorem filled_ofInsertions (insertions : Insertions) {entry : Name × List Site}
    (hentry : entry ∈ (ofInsertions insertions).entries) :
    entry.2 = insertions.under entry.1 :=
  ((proper_ofInsertions insertions).got hentry).symm.trans (get_ofInsertions insertions entry.1)

theorem size_ofInsertions (insertions : Insertions) :
    (ofInsertions insertions).size = insertions.names.toFinset.card := by
  have members : ((ofInsertions insertions).entries.map (·.1)).toFinset =
      insertions.names.toFinset := by
    ext name
    simp only [List.mem_toFinset, mem_keys_ofInsertions]
  calc (ofInsertions insertions).size
      = ((ofInsertions insertions).entries.map (·.1)).length := (List.length_map _).symm
    _ = ((ofInsertions insertions).entries.map (·.1)).toFinset.card :=
      (List.toFinset_card_of_nodup (proper_ofInsertions insertions).nodup).symm
    _ = insertions.names.toFinset.card := by rw [members]

theorem collisions_ofInsertions (insertions : Insertions) :
    (ofInsertions insertions).collisions =
      ((ofInsertions insertions).entries.map (·.1)).filter
        fun name => 2 ≤ insertions.names.count name := by
  have several : ∀ entry ∈ (ofInsertions insertions).entries,
      decide (entry.2.length > 1) = decide (2 ≤ insertions.names.count entry.1) := by
    intro entry hentry
    rw [filled_ofInsertions insertions hentry, Insertions.length_under]
    rfl
  rw [collisions, List.filter_congr several, List.filter_map]
  rfl

theorem groups_ofInsertions (insertions : Insertions) :
    (ofInsertions insertions).roster.Groups insertions where
  once := (proper_ofInsertions insertions).nodup
  named := mem_keys_ofInsertions insertions
  ordered := by
    have keys : (ofInsertions insertions).roster.names = distinct insertions.names :=
      keys_ofInsertions insertions
    rw [keys]
    exact distinct_ordered insertions.names
  filled _ hentry := filled_ofInsertions insertions hentry
  kept := kept_ofInsertions insertions
  got _ hentry := (proper_ofInsertions insertions).got hentry
  unknown name other := by
    have nothing : insertions.under name = [] := Insertions.under_eq_nil other
    exact (get_ofInsertions insertions name).trans nothing
  size := size_ofInsertions insertions
  collisions := collisions_ofInsertions insertions

theorem enter_eq_foldl (o : Occurrences) (unit : Nat) (ds : List Declaration) :
    o.enter unit ds = (ds.map fun d => (d.name, ⟨unit, d.op⟩)).foldl
      (fun o (name, site) => o.insert name site) o := by
  rw [enter, List.foldl_map]

end Occurrences

namespace Catalogue

def declarations (units : List Declared) (space : Space) : Insertions :=
  units.zipIdx.flatMap fun (declared, unit) =>
    (declared.of space).map fun d => (d.name, ⟨unit, d.op⟩)

theorem table_eq (units : List Declared) (space : Space) :
    table units space = .ofInsertions (declarations units space) := by
  have run : ∀ (entries : List (Declared × Nat)) (o : Occurrences),
      entries.foldl (fun o (declared, unit) => o.enter unit (declared.of space)) o =
        (entries.flatMap fun (declared, unit) =>
          (declared.of space).map fun d => (d.name, (⟨unit, d.op⟩ : Site))).foldl
            (fun o (name, site) => o.insert name site) o := by
    intro entries
    induction entries with
    | nil => exact fun o => rfl
    | cons entry rest ih =>
      intro o
      obtain ⟨declared, unit⟩ := entry
      rw [List.foldl_cons, ih, List.flatMap_cons, List.foldl_append]
      dsimp only
      rw [Occurrences.enter_eq_foldl]
  exact run units.zipIdx .empty

/-- The names that are judged in a link, in the order in which they are judged, with all their
declarations. -/
theorem groups_ofDeclared {lexicon : Lexicon} {units : List Declared} {c : Catalogue}
    (h : ofDeclared lexicon units = .ok c) (space : Space) :
    (c.of space).roster.Groups (declarations units space) := by
  rw [(ofDeclared_eq_ok.mp h).2 space, table_eq]
  exact Occurrences.groups_ofInsertions _

end Catalogue

/-! The order and the map apart -/

instance : Hashable Name := ⟨fun name => hash name.index⟩

/-- A table that keeps the order of its names beside a map from them to their declarations. -/
structure NameTable where
  order : List Name
  found : Std.HashMap Name (List Site)

namespace NameTable

def empty : NameTable := ⟨[], ∅⟩

def get (t : NameTable) (name : Name) : List Site := t.found.getD name []

def insert (t : NameTable) (name : Name) (site : Site) : NameTable where
  order := if (t.get name).isEmpty then t.order ++ [name] else t.order
  found := t.found.insert name (t.get name ++ [site])

def listed (t : NameTable) : List (Name × List Site) :=
  t.order.map fun name => (name, t.get name)

def collisions (t : NameTable) : List Name :=
  (t.listed.filter fun (_, sites) => sites.length > 1).map (·.1)

def roster (t : NameTable) : Roster := ⟨t.listed, t.get, t.order.length, t.collisions⟩

def ofInsertions (insertions : Insertions) : NameTable :=
  insertions.foldl (fun t (name, site) => t.insert name site) .empty

structure Represents (t : NameTable) (o : Occurrences) : Prop where
  order : t.order = o.entries.map (·.1)
  get : ∀ name, t.get name = o.get name

theorem represents_empty : empty.Represents .empty :=
  ⟨rfl, fun _ => Std.HashMap.getD_empty⟩

theorem get_insert (t : NameTable) (name other : Name) (site : Site) :
    (t.insert name site).get other =
      if other = name then t.get name ++ [site] else t.get other := by
  by_cases same : other = name
  · simp [get, insert, same]
  · simp [get, insert, Std.HashMap.getD_insert, same, Ne.symm same]

theorem Represents.insert {t : NameTable} {o : Occurrences} (h : t.Represents o)
    (proper : o.Proper) (name : Name) (site : Site) :
    (t.insert name site).Represents (o.insert name site) where
  order := by
    have keys : (o.insert name site).entries.map (·.1) =
        if name ∈ o.entries.map (·.1) then o.entries.map (·.1)
        else o.entries.map (·.1) ++ [name] := Occurrences.keys_insertInto name site o.entries
    -- one side asks whether anything stands under the name, the other whether the name is a key
    by_cases vacant : o.get name = []
    · have unknown : name ∉ o.entries.map (·.1) :=
        fun listed => proper.mem_keys_iff.mp listed vacant
      simp only [NameTable.insert, keys, h.order, h.get, vacant, if_neg unknown, List.isEmpty_nil,
        if_true]
    · have known : name ∈ o.entries.map (·.1) := proper.mem_keys_iff.mpr vacant
      simp only [NameTable.insert, keys, h.order, h.get, if_pos known, List.isEmpty_iff,
        if_neg vacant]
  get other := by rw [get_insert, Occurrences.get_insert, h.get, h.get]

theorem represents_ofInsertions (insertions : Insertions) :
    (ofInsertions insertions).Represents (Occurrences.ofInsertions insertions) := by
  induction insertions using List.reverseRecOn with
  | nil => exact represents_empty
  | append_singleton before last ih =>
    obtain ⟨name, site⟩ := last
    have inserted : ofInsertions (before ++ [(name, site)]) =
        (ofInsertions before).insert name site := by simp [ofInsertions]
    rw [inserted, Occurrences.ofInsertions_concat]
    exact ih.insert (Occurrences.proper_ofInsertions before) name site

theorem Represents.roster_eq {t : NameTable} {o : Occurrences} (h : t.Represents o)
    (proper : o.Proper) : t.roster = o.roster := by
  have listed : t.listed = o.entries := by
    simp only [NameTable.listed, h.order, h.get]
    exact (entries_eq_map_names fun entry hentry => (proper.got hentry).symm).symm
  ext1
  · exact listed
  · exact funext h.get
  · exact (congrArg List.length h.order).trans (List.length_map _)
  · simp only [roster, Occurrences.roster, collisions, listed, Occurrences.collisions]

end NameTable

/-- Whatever is inserted, the answers of a table of names are the one way to group the insertions
by their names, and a table with the order and the map apart answers alike. -/
theorem names_group_stably (insertions : Insertions) :
    (∀ r : Roster, r.Groups insertions ↔ r = (Occurrences.ofInsertions insertions).roster) ∧
    (NameTable.ofInsertions insertions).roster = (Occurrences.ofInsertions insertions).roster := by
  have groups := Occurrences.groups_ofInsertions insertions
  have represents := NameTable.represents_ofInsertions insertions
  constructor
  · intro r
    constructor
    · intro grouped
      exact grouped.unique groups
    · rintro rfl
      exact groups
  · exact represents.roster_eq (Occurrences.proper_ofInsertions insertions)

example : (Occurrences.ofInsertions
      [(⟨2⟩, ⟨0, ⟨0⟩⟩), (⟨1⟩, ⟨0, ⟨1⟩⟩), (⟨2⟩, ⟨1, ⟨0⟩⟩)]).entries =
    [(⟨2⟩, [⟨0, ⟨0⟩⟩, ⟨1, ⟨0⟩⟩]), (⟨1⟩, [⟨0, ⟨1⟩⟩])] := by decide

end Linkage
