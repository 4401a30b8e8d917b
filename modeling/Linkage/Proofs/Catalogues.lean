import Linkage.Link.Run
import Linkage.Proofs.Passes
import Mathlib.Data.List.Nodup
/-!
The catalogue of a design. Every declaration is entered under its kind and its name, in the order
of the units, so a name leads to the declarations of it and to nothing else.
-/
namespace Linkage

namespace Occurrences

structure Proper (o : Occurrences) : Prop where
  nodup : (o.entries.map (·.1)).Nodup
  inhabited : ∀ entry ∈ o.entries, entry.2 ≠ []

theorem proper_empty : empty.Proper := ⟨List.nodup_nil, fun _ h => absurd h List.not_mem_nil⟩

theorem mem_insertInto {name : Name} {site : Site} {entries : List (Name × List Site)}
    {entry : Name × List Site} (h : entry ∈ insertInto name site entries) :
    entry.1 = name ∧ entry.2 ≠ [] ∨ entry ∈ entries := by
  induction entries with
  | nil =>
    have single := List.mem_singleton.mp h
    exact .inl ⟨congrArg Prod.fst single, by rw [single]; simp⟩
  | cons head rest ih =>
    obtain ⟨key, sites⟩ := head
    unfold insertInto at h
    split at h
    · next same =>
      rcases List.mem_cons.mp h with rfl | h
      · exact .inl ⟨same, by simp⟩
      · exact .inr (List.mem_cons_of_mem _ h)
    · rcases List.mem_cons.mp h with rfl | h
      · exact .inr List.mem_cons_self
      · rcases ih h with found | found
        · exact .inl found
        · exact .inr (List.mem_cons_of_mem _ found)

theorem nodup_insertInto (name : Name) (site : Site) {entries : List (Name × List Site)}
    (nodup : (entries.map (·.1)).Nodup) : ((insertInto name site entries).map (·.1)).Nodup := by
  induction entries with
  | nil => exact List.nodup_singleton _
  | cons head rest ih =>
    obtain ⟨key, sites⟩ := head
    rw [List.map_cons, List.nodup_cons] at nodup
    unfold insertInto
    split
    · rw [List.map_cons, List.nodup_cons]
      exact nodup
    · next other =>
      rw [List.map_cons, List.nodup_cons]
      refine ⟨fun hmem => ?_, ih nodup.2⟩
      obtain ⟨entry, hentry, heq⟩ := List.mem_map.mp hmem
      rcases mem_insertInto hentry with ⟨hname, -⟩ | hentry
      · exact other (heq.symm.trans hname)
      · exact nodup.1 (heq ▸ List.mem_map_of_mem hentry)

theorem Proper.insert {o : Occurrences} (h : o.Proper) (name : Name) (site : Site) :
    (o.insert name site).Proper where
  nodup := nodup_insertInto name site h.nodup
  inhabited entry hentry := by
    rcases mem_insertInto hentry with ⟨-, hsites⟩ | hentry
    · exact hsites
    · exact h.inhabited entry hentry

theorem Proper.mem_iff {o : Occurrences} (h : o.Proper) {name : Name} {sites : List Site} :
    (name, sites) ∈ o.entries ↔ o.get name = sites ∧ sites ≠ [] := by
  rw [← lookup_eq_some_iff_mem h.nodup, get]
  constructor
  · intro found
    exact ⟨by rw [found, Option.getD_some],
      h.inhabited _ ((lookup_eq_some_iff_mem h.nodup).mp found)⟩
  · rintro ⟨rfl, some_site⟩
    cases found : o.entries.lookup name with
    | none => rw [found] at some_site; exact absurd rfl some_site
    | some sites => rfl

def enter (o : Occurrences) (unit : Nat) (ds : List Declaration) : Occurrences :=
  ds.foldl (fun o d => o.insert d.name ⟨unit, d.op⟩) o

theorem Proper.enter {o : Occurrences} (h : o.Proper) (unit : Nat) (ds : List Declaration) :
    (o.enter unit ds).Proper := by
  induction ds generalizing o with
  | nil => exact h
  | cons d rest ih => exact ih (h.insert d.name ⟨unit, d.op⟩)

theorem get_enter (o : Occurrences) (unit : Nat) (ds : List Declaration) (name : Name) :
    (o.enter unit ds).get name =
      o.get name ++ (ds.filter (·.name = name)).map fun d => ⟨unit, d.op⟩ := by
  induction ds generalizing o with
  | nil => exact (List.append_nil _).symm
  | cons d rest ih =>
    have first := ih (o.insert d.name ⟨unit, d.op⟩)
    rw [get_insert] at first
    by_cases same : name = d.name
    · subst same
      rw [List.filter_cons_of_pos (by simp), List.map_cons]
      simpa [enter] using first
    · rw [List.filter_cons_of_neg (by simp [Ne.symm same])]
      rw [if_neg same] at first
      exact first

end Occurrences

theorem Lexicon.text_answers {lexicon : Lexicon} {name : Name} {excused : Fault → Prop}
    (known : name.index < lexicon.size) : Ends (fun _ => True) excused (lexicon.text name) := by
  obtain ⟨text, htext⟩ := Lexicon.exists_text known
  exact ends_of_ok htext trivial

namespace NamePool

def takeAll (lexicon : Lexicon) (p : NamePool) (names : List Name) : Checked NamePool :=
  names.foldlM (fun p name => do return p.reserve (← lexicon.text name)) p

variable {lexicon : Lexicon} {p p' : NamePool} {names : List Name}

theorem takeAll_cons (name : Name) (rest : List Name) :
    p.takeAll lexicon (name :: rest) =
      lexicon.text name >>= fun text => (p.reserve text).takeAll lexicon rest := by
  simp only [takeAll, List.foldlM_cons, bind_assoc, pure_bind]

theorem takeAll_append (names others : List Name) :
    p.takeAll lexicon (names ++ others) =
      p.takeAll lexicon names >>= fun p => p.takeAll lexicon others := List.foldlM_append

theorem known_of_takeAll (h : p.takeAll lexicon names = .ok p') :
    ∀ name ∈ names, ∃ text, lexicon.text name = .ok text := by
  induction names generalizing p with
  | nil => exact fun _ hname => absurd hname List.not_mem_nil
  | cons name rest ih =>
    rw [takeAll_cons] at h
    obtain ⟨text, htext, h⟩ := bind_eq_ok.mp h
    exact List.forall_mem_cons.mpr ⟨⟨text, htext⟩, ih h⟩

theorem contains_takeAll (h : p.takeAll lexicon names = .ok p') (text : String) :
    p'.contains text = true ↔
      p.contains text = true ∨ ∃ name ∈ names, lexicon.text name = .ok text := by
  induction names generalizing p with
  | nil =>
    cases h
    simp
  | cons name rest ih =>
    rw [takeAll_cons] at h
    obtain ⟨first, hfirst, h⟩ := bind_eq_ok.mp h
    rw [ih h, contains_reserve, List.exists_mem_cons_iff, hfirst, Bool.or_eq_true, beq_iff_eq,
      or_assoc, Except.ok.injEq, eq_comm (a := text)]

theorem takeAll_ends {excused : Fault → Prop} (p : NamePool)
    (each : ∀ name ∈ names, Ends (fun _ => True) excused (lexicon.text name)) :
    Ends (fun _ => True) excused (p.takeAll lexicon names) :=
  Ends.foldlM (I := fun _ => True)
    (fun _ _ name hname => (each name hname).bind fun _ _ => ends_of_ok rfl trivial) trivial

theorem exists_takeAll (p : NamePool) (known : ∀ name ∈ names, name.index < lexicon.size) :
    ∃ p', p.takeAll lexicon names = .ok p' :=
  (p.takeAll_ends fun name hname => Lexicon.text_answers (known name hname)).exists_ok.imp
    fun _ => And.left

end NamePool

namespace Catalogue

def of (c : Catalogue) : Space → Occurrences
  | .classes => c.classes
  | .modules => c.modules

def roll (declared : Declared) : List Name :=
  (declared.of .classes).map (·.name) ++ (declared.of .modules).map (·.name)

def table (units : List Declared) (space : Space) : Occurrences :=
  units.zipIdx.foldl (fun o (declared, unit) => o.enter unit (declared.of space)) .empty

variable {lexicon : Lexicon}

theorem foldlM_classes (unit : Nat) (ds : List Declaration) (c : Catalogue) :
    ds.foldlM (fun c d => do
        let text ← lexicon.text d.name
        return { c with
          classes := c.classes.insert d.name ⟨unit, d.op⟩
          pool := c.pool.reserve text }) c =
      c.pool.takeAll lexicon (ds.map (·.name)) >>= fun pool =>
        .ok { c with classes := c.classes.enter unit ds, pool := pool } := by
  induction ds generalizing c with
  | nil => rfl
  | cons d rest ih =>
    rw [List.foldlM_cons, List.map_cons, NamePool.takeAll_cons]
    cases lexicon.text d.name with
    | error fault => rfl
    | ok text => exact ih _

theorem foldlM_modules (unit : Nat) (ds : List Declaration) (c : Catalogue) :
    ds.foldlM (fun c d => do
        let text ← lexicon.text d.name
        return { c with
          modules := c.modules.insert d.name ⟨unit, d.op⟩
          pool := c.pool.reserve text }) c =
      c.pool.takeAll lexicon (ds.map (·.name)) >>= fun pool =>
        .ok { c with modules := c.modules.enter unit ds, pool := pool } := by
  induction ds generalizing c with
  | nil => rfl
  | cons d rest ih =>
    rw [List.foldlM_cons, List.map_cons, NamePool.takeAll_cons]
    cases lexicon.text d.name with
    | error fault => rfl
    | ok text => exact ih _

theorem addUnit_eq (c : Catalogue) (declared : Declared) (unit : Nat) :
    c.addUnit lexicon declared unit =
      c.pool.takeAll lexicon (roll declared) >>= fun pool =>
        .ok ⟨c.classes.enter unit declared.classes, c.modules.enter unit declared.modules,
          pool⟩ := by
  unfold addUnit roll
  rw [foldlM_classes, NamePool.takeAll_append, bind_assoc, bind_assoc]
  refine bind_congr fun pool => ?_
  exact foldlM_modules unit declared.modules _

theorem foldlM_addUnit (entries : List (Declared × Nat)) (c : Catalogue) :
    entries.foldlM (fun c (declared, unit) => c.addUnit lexicon declared unit) c =
      c.pool.takeAll lexicon (entries.flatMap fun e => roll e.1) >>= fun pool =>
        .ok ⟨entries.foldl (fun o (declared, unit) => o.enter unit declared.classes) c.classes,
          entries.foldl (fun o (declared, unit) => o.enter unit declared.modules) c.modules,
          pool⟩ := by
  induction entries generalizing c with
  | nil => rfl
  | cons entry rest ih =>
    obtain ⟨declared, unit⟩ := entry
    rw [List.foldlM_cons, List.flatMap_cons, NamePool.takeAll_append, bind_assoc]
    dsimp only
    rw [addUnit_eq, bind_assoc]
    exact bind_congr fun pool => ih _

theorem ofDeclared_eq (lexicon : Lexicon) (units : List Declared) :
    ofDeclared lexicon units =
      NamePool.empty.takeAll lexicon (units.flatMap roll) >>= fun pool =>
        .ok ⟨table units .classes, table units .modules, pool⟩ := by
  have order : units.zipIdx.flatMap (fun e => roll e.1) = units.flatMap roll := by
    conv => rhs; rw [← List.zipIdx_map_fst 0 units, List.flatMap_map]
  rw [ofDeclared, foldlM_addUnit, order]
  rfl

theorem ofDeclared_eq_ok {units : List Declared} {c : Catalogue} :
    ofDeclared lexicon units = .ok c ↔
      NamePool.empty.takeAll lexicon (units.flatMap roll) = .ok c.pool ∧
        ∀ space, c.of space = table units space := by
  rw [ofDeclared_eq, bind_eq_ok]
  constructor
  · rintro ⟨pool, hpool, h⟩
    cases h
    exact ⟨hpool, fun space => by cases space <;> rfl⟩
  · rintro ⟨hpool, tables⟩
    refine ⟨c.pool, hpool, congrArg Except.ok ?_⟩
    rw [← tables .classes, ← tables .modules]
    rfl

def sites (units : List Declared) (space : Space) (name : Name) : List Site :=
  units.zipIdx.flatMap fun (declared, unit) =>
    ((declared.of space).filter (·.name = name)).map fun d => ⟨unit, d.op⟩

theorem table_spec (units : List Declared) (space : Space) :
    (table units space).Proper ∧
      ∀ name, (table units space).get name = sites units space name := by
  have run : ∀ (entries : List (Declared × Nat)) (o : Occurrences), o.Proper →
      let o' := entries.foldl (fun o (declared, unit) => o.enter unit (declared.of space)) o
      o'.Proper ∧ ∀ name, o'.get name = o.get name ++ entries.flatMap fun (declared, unit) =>
        ((declared.of space).filter (·.name = name)).map fun d => ⟨unit, d.op⟩ := by
    intro entries
    induction entries with
    | nil => exact fun o proper => ⟨proper, fun name => (List.append_nil _).symm⟩
    | cons entry rest ih =>
      intro o proper
      obtain ⟨declared, unit⟩ := entry
      obtain ⟨proper', hget⟩ := ih _ (proper.enter unit (declared.of space))
      refine ⟨proper', fun name => ?_⟩
      rw [List.foldl_cons, hget, Occurrences.get_enter, List.append_assoc, List.flatMap_cons]
  exact run units.zipIdx .empty Occurrences.proper_empty

theorem mem_entries_iff {units : List Declared} {space : Space} {name : Name}
    {found : List Site} :
    (name, found) ∈ (table units space).entries ↔
      sites units space name = found ∧ found ≠ [] := by
  obtain ⟨proper, hget⟩ := table_spec units space
  rw [proper.mem_iff, hget]

theorem mem_roll {declared : Declared} {name : Name} :
    name ∈ roll declared ↔ ∃ space, ∃ d ∈ declared.of space, d.name = name := by
  rw [roll, List.mem_append, List.mem_map, List.mem_map]
  constructor
  · rintro (found | found)
    · exact ⟨.classes, found⟩
    · exact ⟨.modules, found⟩
  · rintro ⟨space, found⟩
    cases space with
    | classes => exact .inl found
    | modules => exact .inr found

theorem mem_flatMap_roll_of_mem_sites {units : List Declared} {space : Space} {name : Name}
    {site : Site} (h : site ∈ sites units space name) : name ∈ units.flatMap roll := by
  obtain ⟨⟨declared, unit⟩, hdeclared, hsite⟩ := List.mem_flatMap.mp h
  obtain ⟨d, hd, -⟩ := List.mem_map.mp hsite
  obtain ⟨hd, hname⟩ := List.mem_filter.mp hd
  have hmem : declared ∈ units := (List.mem_zipIdx hdeclared).2.2 ▸ List.getElem_mem _
  exact List.mem_flatMap.mpr ⟨declared, hmem, mem_roll.mpr ⟨space, d, hd, of_decide_eq_true hname⟩⟩

theorem exists_text_of_mem_sites {units : List Declared} {pool : NamePool}
    (h : NamePool.empty.takeAll lexicon (units.flatMap roll) = .ok pool) {space : Space}
    {name : Name} {site : Site} (hsite : site ∈ sites units space name) :
    ∃ text, lexicon.text name = .ok text ∧ pool.contains text = true := by
  have declared := mem_flatMap_roll_of_mem_sites hsite
  obtain ⟨text, htext⟩ := NamePool.known_of_takeAll h name declared
  exact ⟨text, htext, (NamePool.contains_takeAll h text).mpr (.inr ⟨name, declared, htext⟩)⟩

end Catalogue

end Linkage
