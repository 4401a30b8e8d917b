import Linkage.Proofs.Interfaces
import Linkage.Proofs.Judgements
import Linkage.Proofs.Linkable
import Linkage.Proofs.Obstacles
/-!
What it takes for a stub of a class to go with the definition. If no two fields of either share a
name, the two scans for fields come to comparing two maps: the stub goes with the definition exactly
if the parameters have the same types in order and the fields the same names and types in any order.
Which answer is given otherwise depends on the first difference alone. There is none if a name that
the comparison reads has no text, or a type that it shows cannot be written.
-/
namespace Linkage

namespace ClassHead

def Distinct (c : ClassHead) : Prop := (c.fields.map (·.name)).Nodup

instance (c : ClassHead) : Decidable c.Distinct :=
  inferInstanceAs (Decidable (c.fields.map (·.name)).Nodup)

def entries (c : ClassHead) : List (Name × TyId) := c.fields.map fun f => (f.name, f.ty)

/-- The parameters have the same types in order, and the fields the same names and types in any
order. -/
def Alike (a b : ClassHead) : Prop :=
  a.params.map (·.ty) = b.params.map (·.ty) ∧ a.entries.Perm b.entries

/-- All that a stub states is so, and the field is the first one of the definition that it leaves
out. -/
structure LeavesOut (definition stub : ClassHead) (field : Field) : Prop where
  params : definition.params.map (·.ty) = stub.params.map (·.ty)
  stated : stub.entries ⊆ definition.entries
  first : ∃ before after, definition.fields = before ++ field :: after ∧
    (∀ f ∈ before, f.name ∈ stub.fields.map (·.name)) ∧ field.name ∉ stub.fields.map (·.name)

/-- The comparison of the stub gets to this field: the parameters have the same types, and the
definition has the fields before it with their types. -/
structure Reaches (definition stub : ClassHead) (field : Field) : Prop where
  params : definition.params.map (·.ty) = stub.params.map (·.ty)
  first : ∃ before after, stub.fields = before ++ field :: after ∧
    ∀ f ∈ before, (definition.field? f.name).map (·.ty) = some f.ty

/-- The first difference between a definition and a stub is one between these two types, of a
parameter or of a field. -/
inductive FirstApart (definition stub : ClassHead) (l r : TyId) : Prop
  | param {before ls rs : List TyId} (differ : l ≠ r)
      (count : definition.params.length = stub.params.length)
      (left : definition.params.map (·.ty) = before ++ l :: ls)
      (right : stub.params.map (·.ty) = before ++ r :: rs)
  | field {field : Field} (differ : l ≠ r) (reached : definition.Reaches stub field)
      (left : (definition.field? field.name).map (·.ty) = some l) (right : field.ty = r)

variable {a b c : ClassHead}

theorem Alike.refl (a : ClassHead) : a.Alike a := ⟨rfl, .refl _⟩

theorem Alike.symm (h : a.Alike b) : b.Alike a := ⟨h.1.symm, h.2.symm⟩

theorem Alike.trans (h : a.Alike b) (h' : b.Alike c) : a.Alike c :=
  ⟨h.1.trans h'.1, h.2.trans h'.2⟩

theorem length_eq_of_types (h : a.params.map (·.ty) = b.params.map (·.ty)) :
    a.params.length = b.params.length := by
  simpa using congrArg List.length h

theorem map_entries (c : ClassHead) : c.entries.map (·.1) = c.fields.map (·.name) := by
  simp [entries]

theorem mem_names_of_mem_entries {name : Name} {ty : TyId} (h : (name, ty) ∈ c.entries) :
    name ∈ c.fields.map (·.name) := by
  rw [← map_entries]
  exact List.mem_map_of_mem (f := Prod.fst) h

theorem exists_mem_entries {name : Name} (h : name ∈ c.fields.map (·.name)) :
    ∃ ty, (name, ty) ∈ c.entries := by
  rw [← map_entries] at h
  obtain ⟨entry, hentry, rfl⟩ := List.mem_map.mp h
  exact ⟨entry.2, hentry⟩

theorem isSome_field?_iff {name : Name} :
    (c.field? name).isSome = true ↔ name ∈ c.fields.map (·.name) := by
  rw [field?, List.find?_isSome]
  simp

theorem field?_eq_none_iff {name : Name} :
    c.field? name = none ↔ name ∉ c.fields.map (·.name) := by
  rw [← isSome_field?_iff, Bool.not_eq_true, Option.isSome_eq_false_iff, Option.isNone_iff_eq_none]

namespace Distinct

theorem nodup (h : a.Distinct) : a.entries.Nodup :=
  List.Nodup.of_map (·.1) (by rw [map_entries]; exact h)

theorem map_ty_field?_iff (h : a.Distinct) {name : Name} {ty : TyId} :
    (a.field? name).map (·.ty) = some ty ↔ (name, ty) ∈ a.entries := by
  constructor
  · intro found
    obtain ⟨field, hfield, rfl⟩ := Option.map_eq_some_iff.mp found
    have same : field.name = name := by simpa using List.find?_some hfield
    subst same
    exact List.mem_map_of_mem (f := fun f : Field => (f.name, f.ty))
      (List.mem_of_find?_eq_some hfield)
  · intro hmem
    obtain ⟨field, hfield, heq⟩ := List.mem_map.mp hmem
    cases heq
    rw [field?, find?_name_eq h hfield]
    rfl

theorem ty_unique (h : a.Distinct) {name : Name} {ty ty' : TyId} (hty : (name, ty) ∈ a.entries)
    (hty' : (name, ty') ∈ a.entries) : ty = ty' :=
  Option.some.inj ((h.map_ty_field?_iff.mpr hty).symm.trans (h.map_ty_field?_iff.mpr hty'))

theorem perm_iff (ha : a.Distinct) (hb : b.Distinct) : a.entries.Perm b.entries ↔
    b.entries ⊆ a.entries ∧ ∀ name ∈ a.fields.map (·.name), name ∈ b.fields.map (·.name) := by
  constructor
  · intro same
    refine ⟨same.symm.subset, fun name hname => ?_⟩
    obtain ⟨ty, hty⟩ := exists_mem_entries hname
    exact mem_names_of_mem_entries (same.subset hty)
  · rintro ⟨stated, covered⟩
    refine (List.perm_ext_iff_of_nodup ha.nodup hb.nodup).mpr fun (name, ty) => ⟨?_, ?_⟩
    · intro hmem
      obtain ⟨ty', hty'⟩ := exists_mem_entries (covered name (mem_names_of_mem_entries hmem))
      cases ha.ty_unique (stated hty') hmem
      exact hty'
    · exact fun hmem => stated hmem

end Distinct

end ClassHead

namespace ClassDifference

variable {definition stub : ClassHead} {difference : ClassDifference}

theorem firstParam_eq_none_iff {ls rs : List Param} (count : ls.length = rs.length)
    {index : Nat} : firstParam index ls rs = none ↔ ls.map (·.ty) = rs.map (·.ty) :=
  ⟨map_ty_eq_of_firstParam_eq_none count, firstParam_eq_none⟩

theorem firstParam_eq_some_iff {ls rs : List Param} {index : Nat} :
    firstParam index ls rs = some difference ↔ ∃ before l r ls' rs', l ≠ r ∧
      ls.map (·.ty) = before ++ l :: ls' ∧ rs.map (·.ty) = before ++ r :: rs' ∧
      difference = .paramType (index + before.length) l r := by
  induction ls generalizing index rs with
  | nil => simp [firstParam]
  | cons p ps ih =>
    cases rs with
    | nil => simp [firstParam]
    | cons q qs =>
      unfold firstParam
      split
      · next differ =>
        constructor
        · intro h
          cases h
          exact ⟨[], p.ty, q.ty, ps.map (·.ty), qs.map (·.ty), differ, rfl, rfl, rfl⟩
        · rintro ⟨before, l, r, ls', rs', -, left, right, rfl⟩
          cases before with
          | nil => cases left; cases right; rfl
          | cons ty before =>
            rw [List.map_cons, List.cons_append, List.cons.injEq] at left right
            exact absurd (left.1.trans right.1.symm) differ
      · next same =>
        rw [ne_eq, not_not] at same
        rw [ih]
        constructor
        · rintro ⟨before, l, r, ls', rs', differ, left, right, rfl⟩
          refine ⟨p.ty :: before, l, r, ls', rs', differ, ?_, ?_, ?_⟩
          · rw [List.map_cons, left, List.cons_append]
          · rw [List.map_cons, right, same, List.cons_append]
          · rw [List.length_cons, Nat.add_assoc, Nat.add_comm 1]
        · rintro ⟨before, l, r, ls', rs', differ, left, right, rfl⟩
          cases before with
          | nil =>
            cases left
            cases right
            exact absurd same differ
          | cons ty before =>
            rw [List.map_cons, List.cons_append, List.cons.injEq] at left right
            refine ⟨before, l, r, ls', rs', differ, left.2, right.2, ?_⟩
            rw [List.length_cons, Nat.add_assoc, Nat.add_comm 1]

theorem ofField_eq_none {field : Field} : ofField definition field = none ↔
    (definition.field? field.name).map (·.ty) = some field.ty := by
  unfold ofField
  cases definition.field? field.name with
  | none => simp
  | some found => simp

theorem ofField_eq_none_iff (h : definition.Distinct) {field : Field} :
    ofField definition field = none ↔ (field.name, field.ty) ∈ definition.entries :=
  ofField_eq_none.trans h.map_ty_field?_iff

theorem ofField_eq_fieldType_iff {field : Field} {name : Name} {l r : TyId} :
    ofField definition field = some (.fieldType name l r) ↔ l ≠ r ∧ name = field.name ∧
      r = field.ty ∧ (definition.field? field.name).map (·.ty) = some l := by
  unfold ofField
  cases definition.field? field.name with
  | none => simp
  | some found =>
    simp only [ne_eq, Option.map_some, Option.some.injEq]
    constructor
    · intro hsome
      split at hsome
      · next differ =>
        cases hsome
        exact ⟨differ, rfl, rfl, rfl⟩
      · cases hsome
    · rintro ⟨differ, rfl, rfl, rfl⟩
      rw [if_pos differ]

/-- The comparison goes through the parameters, then the fields of the stub, then those of the
definition. -/
theorem find_eq_some_iff : find definition stub = some difference ↔
    (definition.params.length ≠ stub.params.length ∧
      difference = .paramCount definition.params.length stub.params.length) ∨
    definition.params.length = stub.params.length ∧
      (firstParam 0 definition.params stub.params = some difference ∨
        definition.params.map (·.ty) = stub.params.map (·.ty) ∧
          (stub.fields.findSome? (ofField definition) = some difference ∨
            stub.fields.findSome? (ofField definition) = none ∧
              ∃ field, definition.fields.find? (fun f => (stub.field? f.name).isNone) =
                some field ∧ difference = .uncovered field.name)) := by
  unfold find
  by_cases count : definition.params.length = stub.params.length
  · simp only [count, ne_eq, not_true_eq_false, if_false, false_and, false_or, true_and,
      Option.or_eq_some_iff, firstParam_eq_none_iff count, Option.map_eq_some_iff,
      @eq_comm _ difference]
  · simp [count, eq_comm]

theorem find_eq_none_iff : find definition stub = none ↔
    definition.params.map (·.ty) = stub.params.map (·.ty) ∧
      stub.fields.findSome? (ofField definition) = none ∧
      definition.fields.find? (fun f => (stub.field? f.name).isNone) = none := by
  unfold find
  by_cases count : definition.params.length = stub.params.length
  · simp only [count, ne_eq, not_true_eq_false, if_false, Option.or_eq_none_iff,
      firstParam_eq_none_iff count, Option.map_eq_none_iff]
  · have differ : definition.params.map (·.ty) ≠ stub.params.map (·.ty) := fun same =>
      count (ClassHead.length_eq_of_types same)
    simp [count, differ]

theorem firstParam_ne_uncovered {ls rs : List Param} {index : Nat} {name : Name} :
    firstParam index ls rs ≠ some (.uncovered name) := by
  intro h
  obtain ⟨before, l, r, ls', rs', -, -, -, heq⟩ := firstParam_eq_some_iff.mp h
  cases heq

theorem ofField_ne_uncovered {field : Field} {name : Name} :
    ofField definition field ≠ some (.uncovered name) := by
  unfold ofField
  split
  · simp
  · split
    · simp
    · simp

theorem ofField_ne_paramType {field : Field} {index : Nat} {l r : TyId} :
    ofField definition field ≠ some (.paramType index l r) := by
  unfold ofField
  split
  · simp
  · split
    · simp
    · simp

theorem findSome?_eq_none_iff_subset (h : definition.Distinct) :
    stub.fields.findSome? (ofField definition) = none ↔ stub.entries ⊆ definition.entries := by
  rw [List.findSome?_eq_none_iff]
  constructor
  · intro each entry hentry
    obtain ⟨field, hfield, rfl⟩ := List.mem_map.mp hentry
    exact (ofField_eq_none_iff h).mp (each field hfield)
  · intro stated field hfield
    exact (ofField_eq_none_iff h).mpr
      (stated (List.mem_map_of_mem (f := fun f : Field => (f.name, f.ty)) hfield))

theorem find_eq_none_iff_alike (hd : definition.Distinct) (hs : stub.Distinct) :
    find definition stub = none ↔ definition.Alike stub := by
  rw [find_eq_none_iff, findSome?_eq_none_iff_subset hd, ClassHead.Alike, hd.perm_iff hs]
  refine and_congr_right fun _ => and_congr_right fun _ => ?_
  rw [List.find?_eq_none, List.forall_mem_map]
  refine forall₂_congr fun field _ => ?_
  rw [Option.isNone_iff_eq_none, ClassHead.field?_eq_none_iff, not_not]

theorem find?_lacking_iff {field : Field} :
    definition.fields.find? (fun f => (stub.field? f.name).isNone) = some field ↔
      ∃ before after, definition.fields = before ++ field :: after ∧
        (∀ f ∈ before, f.name ∈ stub.fields.map (·.name)) ∧
        field.name ∉ stub.fields.map (·.name) := by
  have covered : ∀ f : Field,
      (!(stub.field? f.name).isNone) = true ↔ f.name ∈ stub.fields.map (·.name) := fun f => by
    rw [Bool.not_eq_true', Option.isNone_eq_false_iff, ClassHead.isSome_field?_iff]
  rw [List.find?_eq_some_iff_append, Option.isNone_iff_eq_none, ClassHead.field?_eq_none_iff]
  constructor
  · rintro ⟨lacking, before, after, heq, listed⟩
    exact ⟨before, after, heq, fun f hf => (covered f).mp (listed f hf), lacking⟩
  · rintro ⟨before, after, heq, listed, lacking⟩
    exact ⟨lacking, before, after, heq, fun f hf => (covered f).mpr (listed f hf)⟩

theorem find_eq_uncovered_iff (hd : definition.Distinct) {name : Name} :
    find definition stub = some (.uncovered name) ↔
      ∃ field, definition.LeavesOut stub field ∧ name = field.name := by
  rw [find_eq_some_iff]
  constructor
  · rintro (⟨-, heq⟩ | ⟨-, hparam | ⟨params, hfield | ⟨stated, field, hfield, heq⟩⟩⟩)
    · cases heq
    · exact absurd hparam firstParam_ne_uncovered
    · obtain ⟨field, -, hfield⟩ := List.exists_of_findSome?_eq_some hfield
      exact absurd hfield ofField_ne_uncovered
    · cases heq
      have all_so := (findSome?_eq_none_iff_subset hd).mp stated
      exact ⟨field, ⟨params, all_so, find?_lacking_iff.mp hfield⟩, rfl⟩
  · rintro ⟨field, ⟨params, stated, first⟩, rfl⟩
    have count := ClassHead.length_eq_of_types params
    have all_so := (findSome?_eq_none_iff_subset hd).mpr stated
    exact .inr ⟨count, .inr ⟨params, .inr ⟨all_so, field, find?_lacking_iff.mpr first, rfl⟩⟩⟩

theorem exists_find_types_iff {l r : TyId} :
    (∃ difference, find definition stub = some difference ∧ difference.types = [l, r]) ↔
      definition.FirstApart stub l r := by
  constructor
  · rintro ⟨difference, hfind, htypes⟩
    rcases find_eq_some_iff.mp hfind with
      ⟨-, rfl⟩ | ⟨count, hparam | ⟨params, hfield | ⟨-, field, -, rfl⟩⟩⟩
    · cases htypes
    · obtain ⟨before, l', r', ls, rs, differ, left, right, rfl⟩ := firstParam_eq_some_iff.mp hparam
      cases htypes
      exact .param differ count left right
    · obtain ⟨before, field, after, heq, hfield, stated⟩ := List.findSome?_eq_some_iff.mp hfield
      have reached : definition.Reaches stub field :=
        ⟨params, before, after, heq, fun f hf => ofField_eq_none.mp (stated f hf)⟩
      cases difference with
      | fieldType name l' r' =>
        obtain ⟨differ, -, rfl, left⟩ := ofField_eq_fieldType_iff.mp hfield
        cases htypes
        exact .field differ reached left rfl
      | paramType index l' r' => exact absurd hfield ofField_ne_paramType
      | _ => cases htypes
    · cases htypes
  · intro apart
    cases apart with
    | @param before ls rs differ count left right =>
      have found : firstParam 0 definition.params stub.params =
          some (.paramType (0 + before.length) l r) :=
        firstParam_eq_some_iff.mpr ⟨before, l, r, ls, rs, differ, left, right, rfl⟩
      exact ⟨_, find_eq_some_iff.mpr (.inr ⟨count, .inl found⟩), rfl⟩
    | @field field differ reached left right =>
      obtain ⟨params, before, after, heq, stated⟩ := reached
      have count := ClassHead.length_eq_of_types params
      have found : stub.fields.findSome? (ofField definition) =
          some (.fieldType field.name l r) :=
        List.findSome?_eq_some_iff.mpr ⟨before, field, after, heq,
          ofField_eq_fieldType_iff.mpr ⟨differ, rfl, right.symm, left⟩,
          fun f hf => ofField_eq_none.mpr (stated f hf)⟩
      exact ⟨_, find_eq_some_iff.mpr (.inr ⟨count, .inr ⟨params, .inl found⟩⟩), rfl⟩

/-- A stub of which every field is stated by the definition is gone through to the end. -/
theorem reaches_of_mem {field : Field}
    (params : definition.params.map (·.ty) = stub.params.map (·.ty))
    (stated : stub.fields.findSome? (ofField definition) = none) (hfield : field ∈ stub.fields) :
    definition.Reaches stub field := by
  obtain ⟨before, after, heq⟩ := List.append_of_mem hfield
  refine ⟨params, before, after, heq, fun f hf => ?_⟩
  have listed : f ∈ stub.fields := by
    rw [heq]
    exact List.mem_append_left _ hf
  exact ofField_eq_none.mp (List.findSome?_eq_none_iff.mp stated f listed)

theorem exists_reached_of_find {difference : ClassDifference}
    (h : find definition stub = some difference) (present : ∀ name, difference ≠ .uncovered name) :
    ∀ name ∈ difference.names, ∃ field, definition.Reaches stub field ∧ field.name = name := by
  intro name hname
  rcases find_eq_some_iff.mp h with
    ⟨-, rfl⟩ | ⟨count, hparam | ⟨params, hfield | ⟨-, field, -, rfl⟩⟩⟩
  · cases hname
  · obtain ⟨-, none_⟩ := firstParam_mentions hparam
    rw [none_] at hname
    cases hname
  · obtain ⟨before, field, after, heq, hfield, stated⟩ := List.findSome?_eq_some_iff.mp hfield
    obtain ⟨-, only⟩ := ofField_mentions hfield
    rw [only] at hname
    obtain rfl := List.mem_singleton.mp hname
    exact ⟨field, ⟨params, before, after, heq, fun f hf => ofField_eq_none.mp (stated f hf)⟩, rfl⟩
  · exact absurd rfl (present field.name)

section

variable {lexicon : Lexicon}

/-- Going through fields ends at the first that differs, or before it at a name without a text. -/
theorem firstField_ends_at (lexicon : Lexicon) (definition : ClassHead) (fields : List Field) :
    Ends (fun _ => True) (fun fault => ∃ before field after, fields = before ++ field :: after ∧
        (∀ f ∈ before, ofField definition f = none) ∧ lexicon.size ≤ field.name.index ∧
        fault = .unknownName field.name.index)
      (firstField lexicon definition fields) := by
  induction fields with
  | nil => trivial
  | cons field rest ih =>
    refine ((lexicon.text_ends field.name).imp (fun _ h => h) ?_).bind fun _ _ => ?_
    · rintro _ ⟨unknown, rfl⟩
      exact ⟨[], field, rest, rfl, List.forall_mem_nil _, unknown, rfl⟩
    · split
      · trivial
      · next same =>
        refine ih.imp (fun _ h => h) ?_
        rintro _ ⟨before, other, after, rfl, agree, unknown, rfl⟩
        exact ⟨field :: before, other, after, rfl, List.forall_mem_cons.mpr ⟨same, agree⟩, unknown,
          rfl⟩

theorem known_of_firstField {difference : Option ClassDifference} {before after : List Field}
    {field : Field} (h : firstField lexicon definition (before ++ field :: after) = .ok difference)
    (agree : ∀ f ∈ before, ofField definition f = none) : field.name.index < lexicon.size := by
  induction before with
  | nil =>
    obtain ⟨text, htext, -⟩ := bind_eq_ok.mp h
    exact Lexicon.lt_size_of_text htext
  | cons f before ih =>
    obtain ⟨same, agree⟩ := List.forall_mem_cons.mp agree
    obtain ⟨_, -, h⟩ := bind_eq_ok.mp h
    simp only [same] at h
    exact ih h agree

theorem firstParam_eq_none_of_same
    (params : definition.params.map (·.ty) = stub.params.map (·.ty)) {index : Nat} :
    firstParam index definition.params stub.params = none :=
  (firstParam_eq_none_iff (ClassHead.length_eq_of_types params)).mpr params

theorem known_of_search {difference : Option ClassDifference} {field : Field}
    (h : search lexicon definition stub = .ok difference)
    (reached : definition.Reaches stub field) :
    field.name.index < lexicon.size := by
  obtain ⟨params, before, after, heq, stated⟩ := reached
  have count := ClassHead.length_eq_of_types params
  simp only [search, count, ne_eq, not_true_eq_false, if_false,
    firstParam_eq_none_of_same params, heq] at h
  obtain ⟨_, hfields, -⟩ := bind_eq_ok.mp h
  exact known_of_firstField hfields fun f hf => ofField_eq_none.mpr (stated f hf)

theorem search_ends_at (lexicon : Lexicon) (definition stub : ClassHead) :
    Ends (fun difference => difference = find definition stub)
      (fun fault => ∃ field, definition.Reaches stub field ∧ lexicon.size ≤ field.name.index ∧
        fault = .unknownName field.name.index)
      (search lexicon definition stub) := by
  cases answer : search lexicon definition stub with
  | ok difference => exact search_ok answer
  | error fault =>
    unfold search at answer
    split at answer
    · cases answer
    · next count =>
      split at answer
      · cases answer
      · next same =>
        have params := (firstParam_eq_none_iff (not_not.mp count)).mp same
        have ends := firstField_ends_at lexicon definition stub.fields
        cases first : firstField lexicon definition stub.fields with
        | ok difference =>
          rw [first] at answer
          cases difference <;> cases answer
        | error fault' =>
          rw [first] at ends answer
          cases answer
          obtain ⟨before, field, after, heq, agree, unknown, rfl⟩ := ends
          exact ⟨field, ⟨params, before, after, heq, fun f hf => ofField_eq_none.mp (agree f hf)⟩,
            unknown, rfl⟩

end

end ClassDifference

namespace Court

/-- To compare the two classes the court has to read the name of a field that has no text, or to
show a type that cannot be written. -/
inductive Unreadable (c : Court) (definition stub : ClassHead) : Fault → Prop
  | field {field : Field} (reached : definition.Reaches stub field)
      (unknown : c.lexicon.size ≤ field.name.index) :
    Unreadable c definition stub (.unknownName field.name.index)
  | type {l r id : TyId} {fault : Fault} (apart : definition.FirstApart stub l r)
      (shown : id ∈ [l, r]) (obstacle : c.types.Obstacle c.lexicon id fault) :
    Unreadable c definition stub fault

inductive Tells : Option ClassDifference → Option Objection → Prop
  | none : Tells none none
  | uncovered (name : Name) : Tells (some (.uncovered name)) (some (.uncovered name))
  | differs {difference : ClassDifference} (present : ∀ name, difference ≠ .uncovered name)
      (text : String) : Tells (some difference) (some (.differs text))

namespace Tells

variable {found : Option ClassDifference} {answer : Option Objection}

theorem eq_none_iff (h : Tells found answer) : answer = .none ↔ found = .none := by
  cases h with
  | none => simp
  | uncovered name => simp
  | differs present text => simp

theorem eq_uncovered_iff (h : Tells found answer) {name : Name} :
    answer = some (.uncovered name) ↔ found = some (.uncovered name) := by
  cases h with
  | none => simp
  | uncovered name => simp
  | differs present text => simp [present]

theorem differs_iff (h : Tells found answer) : (∃ text, answer = some (.differs text)) ↔
    found ≠ .none ∧ ∀ name, found ≠ some (.uncovered name) := by
  cases h with
  | none => simp
  | uncovered name => simp
  | differs present text => simp [present]

end Tells

variable {c : Court} {definition stub : ClassHead}

theorem not_unreadable {difference : Option ClassDifference}
    (searched : ClassDifference.search c.lexicon definition stub = .ok difference)
    (written : ∀ d ∈ difference, ∀ id ∈ d.types, ∀ fault, ¬ c.types.Obstacle c.lexicon id fault) :
    ∀ fault, ¬ c.Unreadable definition stub fault := by
  rintro fault (⟨reached, unknown⟩ | ⟨apart, shown, obstacle⟩)
  · exact Nat.not_lt_of_le unknown (ClassDifference.known_of_search searched reached)
  · obtain ⟨d, hfind, htypes⟩ := ClassDifference.exists_find_types_iff.mpr apart
    have found : difference = some d := (ClassDifference.search_ok searched).trans hfind
    exact written d found _ (htypes ▸ shown) fault obstacle

theorem exists_text_of_reached {difference : ClassDifference}
    (searched : ClassDifference.search c.lexicon definition stub = .ok (some difference))
    (present : ∀ name, difference ≠ .uncovered name) {name : Name}
    (hname : name ∈ difference.names) : ∃ text, c.lexicon.text name = .ok text := by
  obtain ⟨field, reached, rfl⟩ := ClassDifference.exists_reached_of_find
    (ClassDifference.search_ok searched).symm present name hname
  exact Lexicon.exists_text (ClassDifference.known_of_search searched reached)

theorem shows_cases {difference : ClassDifference} {l r : TyId}
    (searched : ClassDifference.search c.lexicon definition stub = .ok (some difference))
    (both : difference.types = [l, r]) (detail : String → String → String)
    {answer : Checked (Option Objection)} (h : answer = (do
      let l ← c.types.display c.lexicon l
      let r ← c.types.display c.lexicon r
      return some (.differs (detail l r)))) :
    (∃ fault, answer = .error fault ∧ c.Unreadable definition stub fault) ∨
      (∀ fault, ¬ c.Unreadable definition stub fault) ∧
        ∃ text, answer = .ok (some (.differs text)) := by
  subst h
  have apart : definition.FirstApart stub l r := ClassDifference.exists_find_types_iff.mp
    ⟨difference, (ClassDifference.search_ok searched).symm, both⟩
  rcases writes_both (c.types.display_reads c.lexicon) l r
    (fun l r => some (Objection.differs (detail l r))) rfl with
    ⟨fault, stops, id, shown, obstacle⟩ | ⟨free, lt, rt, answer⟩
  · exact .inl ⟨fault, stops, .type apart shown obstacle⟩
  · refine .inr ⟨not_unreadable searched fun d hd id hid => ?_, detail lt rt, answer⟩
    cases hd
    exact free id (both ▸ hid)

/-- The court compares two classes until it finds a difference, and says which one. -/
theorem objectToClass_cases (c : Court) (definition stub : ClassHead) :
    (∃ fault, c.objectToClass definition stub = .error fault ∧
        c.Unreadable definition stub fault) ∨
      (∀ fault, ¬ c.Unreadable definition stub fault) ∧
        ∃ answer, c.objectToClass definition stub = .ok answer ∧
          Tells (ClassDifference.find definition stub) answer := by
  have ends := ClassDifference.search_ends_at c.lexicon definition stub
  unfold objectToClass
  cases searched : ClassDifference.search c.lexicon definition stub with
  | error fault =>
    rw [searched] at ends
    obtain ⟨field, reached, unknown, rfl⟩ := ends
    exact .inl ⟨_, rfl, .field reached unknown⟩
  | ok difference =>
    rw [searched] at ends
    have hfind : difference = ClassDifference.find definition stub := ends
    rw [← hfind]
    cases difference with
    | none =>
      exact .inr ⟨not_unreadable searched nofun, none, rfl, .none⟩
    | some difference =>
      have untyped : difference.types = [] → ∀ fault, ¬ c.Unreadable definition stub fault := by
        intro nothing
        refine not_unreadable searched fun d hd id hid => ?_
        cases hd
        rw [nothing] at hid
        cases hid
      cases difference with
      | uncovered name => exact .inr ⟨untyped rfl, _, rfl, .uncovered name⟩
      | paramCount l r => exact .inr ⟨untyped rfl, _, rfl, .differs (by simp) _⟩
      | unknownField name =>
        obtain ⟨text, htext⟩ := exists_text_of_reached searched (by simp) List.mem_cons_self
        simp only [ok_bind, htext]
        exact .inr ⟨untyped rfl, _, rfl, .differs (by simp) _⟩
      | paramType index l r =>
        rcases shows_cases searched rfl
          (fun l r => s!"{index}-th argument type is not equal, {l} vs {r}") rfl with
          stops | ⟨readable, text, answer⟩
        · exact .inl stops
        · exact .inr ⟨readable, _, answer, .differs (by simp) text⟩
      | fieldType name l r =>
        obtain ⟨text, htext⟩ := exists_text_of_reached searched (by simp) List.mem_cons_self
        simp only [ok_bind, htext]
        rcases shows_cases searched rfl (fun l r =>
          s!"declaration has a field `{text}` but types don't match, {l} vs {r}") rfl with
          stops | ⟨readable, detail, answer⟩
        · exact .inl stops
        · exact .inr ⟨readable, _, answer, .differs (by simp) detail⟩

theorem objectToClass_stops {fault : Fault} (h : c.objectToClass definition stub = .error fault) :
    c.Unreadable definition stub fault := by
  rcases c.objectToClass_cases definition stub with ⟨fault', heq, stops⟩ | ⟨-, answer, heq, -⟩
  · cases heq.symm.trans h
    exact stops
  · cases heq.symm.trans h

theorem objectToClass_stops_iff :
    (∃ fault, c.objectToClass definition stub = .error fault) ↔
      ∃ fault, c.Unreadable definition stub fault := by
  rcases c.objectToClass_cases definition stub with
    ⟨fault, heq, stops⟩ | ⟨readable, answer, heq, -⟩
  · exact iff_of_true ⟨fault, heq⟩ ⟨fault, stops⟩
  · refine iff_of_false ?_ fun ⟨fault, stops⟩ => readable fault stops
    rintro ⟨fault, stops⟩
    cases heq.symm.trans stops

/-- What the court answers is told by the first difference, where nothing stops the court. -/
theorem exists_answer_iff {P : Option Objection → Prop} {Q : Prop}
    (told : ∀ answer, Tells (ClassDifference.find definition stub) answer → (P answer ↔ Q)) :
    (∃ answer, c.objectToClass definition stub = .ok answer ∧ P answer) ↔
      Q ∧ ∀ fault, ¬ c.Unreadable definition stub fault := by
  rcases c.objectToClass_cases definition stub with
    ⟨fault, heq, stops⟩ | ⟨readable, answer, heq, tells⟩
  · refine iff_of_false ?_ fun ⟨_, readable⟩ => readable fault stops
    rintro ⟨answer, h, -⟩
    cases heq.symm.trans h
  · rw [and_iff_left readable, ← told answer tells, heq]
    simp

theorem objectToClass_eq_none_iff : c.objectToClass definition stub = .ok none ↔
    ClassDifference.find definition stub = none ∧
      ∀ fault, ¬ c.Unreadable definition stub fault := by
  rw [← exists_answer_iff fun _ tells => tells.eq_none_iff]
  simp

theorem objectToClass_eq_uncovered_iff {name : Name} :
    c.objectToClass definition stub = .ok (some (.uncovered name)) ↔
      ClassDifference.find definition stub = some (.uncovered name) ∧
        ∀ fault, ¬ c.Unreadable definition stub fault := by
  rw [← exists_answer_iff fun _ tells => tells.eq_uncovered_iff]
  simp

theorem exists_objectToClass_eq_differs_iff :
    (∃ text, c.objectToClass definition stub = .ok (some (.differs text))) ↔
      ClassDifference.find definition stub ≠ none ∧
        (∀ name, ClassDifference.find definition stub ≠ some (.uncovered name)) ∧
        ∀ fault, ¬ c.Unreadable definition stub fault := by
  rw [← and_assoc, ← exists_answer_iff fun _ tells => tells.differs_iff]
  simp

theorem readable_iff_of_stated
    (params : definition.params.map (·.ty) = stub.params.map (·.ty))
    (stated : stub.fields.findSome? (ClassDifference.ofField definition) = none) :
    (∀ fault, ¬ c.Unreadable definition stub fault) ↔
      ∀ field ∈ stub.fields, field.name.index < c.lexicon.size := by
  constructor
  · intro readable field hfield
    by_contra unknown
    have reached := ClassDifference.reaches_of_mem params stated hfield
    exact readable _ (.field reached (Nat.le_of_not_lt unknown))
  · rintro known fault (⟨reached, unknown⟩ | ⟨apart, -, -⟩)
    · obtain ⟨-, before, after, heq, -⟩ := reached
      have listed := heq ▸ List.mem_append_right before List.mem_cons_self
      exact Nat.not_lt_of_le unknown (known _ listed)
    · obtain ⟨difference, hfind, both⟩ := ClassDifference.exists_find_types_iff.mpr apart
      rcases ClassDifference.find_eq_some_iff.mp hfind with
        ⟨differ, -⟩ | ⟨-, hparam | ⟨-, hfield | ⟨-, field, -, rfl⟩⟩⟩
      · exact differ (ClassHead.length_eq_of_types params)
      · rw [ClassDifference.firstParam_eq_none_of_same params] at hparam
        cases hparam
      · rw [stated] at hfield
        cases hfield
      · cases both

theorem accepts_iff_alike (hd : definition.Distinct) (hs : stub.Distinct) :
    c.objectToClass definition stub = .ok none ↔
      definition.Alike stub ∧ ∀ field ∈ stub.fields, field.name.index < c.lexicon.size := by
  rw [objectToClass_eq_none_iff, ← ClassDifference.find_eq_none_iff_alike hd hs]
  refine and_congr_right fun nothing => ?_
  obtain ⟨params, stated, -⟩ := ClassDifference.find_eq_none_iff.mp nothing
  exact readable_iff_of_stated params stated

theorem misses_iff_leavesOut (hd : definition.Distinct) {name : Name} :
    c.objectToClass definition stub = .ok (some (.uncovered name)) ↔
      (∃ field, definition.LeavesOut stub field ∧ name = field.name) ∧
        ∀ field ∈ stub.fields, field.name.index < c.lexicon.size := by
  rw [objectToClass_eq_uncovered_iff, ← ClassDifference.find_eq_uncovered_iff hd]
  refine and_congr_right fun lacks => ?_
  obtain ⟨field, leaves, -⟩ := (ClassDifference.find_eq_uncovered_iff hd).mp lacks
  have stated := (ClassDifference.findSome?_eq_none_iff_subset hd).mpr leaves.stated
  exact readable_iff_of_stated leaves.params stated

theorem differs_iff (hd : definition.Distinct) (hs : stub.Distinct) :
    (∃ text, c.objectToClass definition stub = .ok (some (.differs text))) ↔
      ¬ definition.Alike stub ∧ (∀ field, ¬ definition.LeavesOut stub field) ∧
        ∀ fault, ¬ c.Unreadable definition stub fault := by
  rw [exists_objectToClass_eq_differs_iff, ne_eq, ClassDifference.find_eq_none_iff_alike hd hs]
  refine and_congr_right fun _ => and_congr_left fun _ => ?_
  simp only [ne_eq, ClassDifference.find_eq_uncovered_iff hd]
  constructor
  · exact fun covered field leaves => covered field.name ⟨field, leaves, rfl⟩
  · rintro covered name ⟨field, leaves, -⟩
    exact covered field leaves

/-- A stub of a class is accepted exactly if it shows the same interface as the definition, up to
the order of the fields, and the names of its fields can be read. A field is said to be left out
exactly if it is the first one that the stub lacks and all that the stub states is so, with names
that can be read. The comparison stops exactly if it comes to a name without a text, or if a type
of the first difference cannot be written, and then on such an obstacle. In all other cases the
answer shows a difference. -/
theorem class_comparison_exact (c : Court) (hd : definition.Distinct) (hs : stub.Distinct) :
    (c.objectToClass definition stub = .ok none ↔
      definition.Alike stub ∧ ∀ field ∈ stub.fields, field.name.index < c.lexicon.size) ∧
    (∀ name, c.objectToClass definition stub = .ok (some (.uncovered name)) ↔
      (∃ field, definition.LeavesOut stub field ∧ name = field.name) ∧
        ∀ field ∈ stub.fields, field.name.index < c.lexicon.size) ∧
    (∀ fault, c.objectToClass definition stub = .error fault →
      c.Unreadable definition stub fault) ∧
    ((∃ fault, c.objectToClass definition stub = .error fault) ↔
      ∃ fault, c.Unreadable definition stub fault) ∧
    ((∃ text, c.objectToClass definition stub = .ok (some (.differs text))) ↔
      ¬ definition.Alike stub ∧ (∀ field, ¬ definition.LeavesOut stub field) ∧
        ∀ fault, ¬ c.Unreadable definition stub fault) ∧
    Equivalence (fun a b : {head : ClassHead // head.Distinct ∧
        ∀ field ∈ head.fields, field.name.index < c.lexicon.size} =>
      c.objectToClass a.1 b.1 = .ok none) ∧
    ∀ other : ClassHead, other.Distinct → c.objectToClass definition stub = .ok none →
      c.objectToClass definition other = .ok none → c.objectToClass stub other = .ok none := by
  refine ⟨accepts_iff_alike hd hs, fun _ => misses_iff_leavesOut hd,
    fun _ => objectToClass_stops, objectToClass_stops_iff, differs_iff hd hs,
    ⟨fun a => ?_, fun {a b} h => ?_, fun {a b d} h h' => ?_⟩, fun other ho h h' => ?_⟩
  · exact (accepts_iff_alike a.2.1 a.2.1).mpr ⟨.refl a.1, a.2.2⟩
  · obtain ⟨alike, -⟩ := (accepts_iff_alike a.2.1 b.2.1).mp h
    exact (accepts_iff_alike b.2.1 a.2.1).mpr ⟨alike.symm, a.2.2⟩
  · obtain ⟨alike, -⟩ := (accepts_iff_alike a.2.1 b.2.1).mp h
    obtain ⟨alike', known⟩ := (accepts_iff_alike b.2.1 d.2.1).mp h'
    exact (accepts_iff_alike a.2.1 d.2.1).mpr ⟨alike.trans alike', known⟩
  · obtain ⟨alike, -⟩ := (accepts_iff_alike hd hs).mp h
    obtain ⟨alike', known⟩ := (accepts_iff_alike hd ho).mp h'
    exact (accepts_iff_alike hs ho).mpr ⟨alike.symm.trans alike', known⟩

def packetHead : ClassHead :=
  ⟨⟨2⟩, [⟨⟨4⟩, ⟨0⟩⟩], [⟨⟨0⟩, ⟨0⟩, .dummy⟩, ⟨⟨1⟩, ⟨1⟩, .dummy⟩]⟩

def packetCourt : Court := ⟨[], ⟨#[.bool, .integer]⟩, muxNames⟩

/-- A stub with the fields in another order is accepted, and one without the second says so. -/
theorem class_comparison_exact_packet :
    packetCourt.objectToClass packetHead
      { packetHead with fields := packetHead.fields.reverse } = .ok none ∧
    packetCourt.objectToClass packetHead
      { packetHead with fields := packetHead.fields.take 1 } =
        .ok (some (.uncovered ⟨1⟩)) := by
  have distinct : packetHead.Distinct := by decide
  constructor
  · have reversed : { packetHead with fields := packetHead.fields.reverse }.Distinct := by decide
    obtain ⟨accepted, -⟩ := packetCourt.class_comparison_exact distinct reversed
    exact accepted.mpr ⟨⟨rfl, by decide⟩, by decide⟩
  · have shorter : { packetHead with fields := packetHead.fields.take 1 }.Distinct := by decide
    obtain ⟨-, lacking, -⟩ := packetCourt.class_comparison_exact distinct shorter
    exact (lacking ⟨1⟩).mpr ⟨⟨⟨⟨1⟩, ⟨1⟩, .dummy⟩, ⟨rfl, by decide,
      [⟨⟨0⟩, ⟨0⟩, .dummy⟩], [], rfl, by decide, by decide⟩, rfl⟩, by decide⟩

def padHead (id : TyId) : ClassHead := ⟨⟨2⟩, [⟨⟨4⟩, id⟩], []⟩

def padCourt : Court := ⟨[], .empty, muxNames⟩

/-- Two classes differ in a type that is not there. No field is left out, but the answer does not
show the difference: there is none. -/
theorem class_comparison_stops_pad :
    (padHead ⟨5⟩).Distinct ∧ (padHead ⟨6⟩).Distinct ∧ ¬ (padHead ⟨5⟩).Alike (padHead ⟨6⟩) ∧
      (∀ field, ¬ (padHead ⟨5⟩).LeavesOut (padHead ⟨6⟩) field) ∧
      padCourt.objectToClass (padHead ⟨5⟩) (padHead ⟨6⟩) = .error (.unknownType 5) ∧
      ∀ text, padCourt.objectToClass (padHead ⟨5⟩) (padHead ⟨6⟩) ≠ .ok (some (.differs text)) := by
  have apart : (padHead ⟨5⟩).params.map (·.ty) ≠ (padHead ⟨6⟩).params.map (·.ty) := by decide
  have stops : padCourt.objectToClass (padHead ⟨5⟩) (padHead ⟨6⟩) = .error (.unknownType 5) := rfl
  refine ⟨by decide, by decide, fun alike => apart alike.1, fun field leaves => apart leaves.params,
    stops, fun text shown => ?_⟩
  cases stops.symm.trans shown

end Court

end Linkage
