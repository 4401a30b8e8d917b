import Linkage.Proofs.Acceptance
import Linkage.Proofs.Uniqueness
/-!
Designs that link. If every unit by itself uses the names that it declares as it should, if stubs
match what they stand for, and if no class in the parameters of a stub may mean one thing here and
another there, then nothing in the link fails, however it is set up. What the check compares after
the link, it would have found equal before.
-/
namespace Linkage

theorem PortDifference.first_self (index : Nat) (ports : List Port) :
    first index ports ports = none := by
  induction ports generalizing index with
  | nil => rfl
  | cons port rest ih => simp [first, ih]

theorem ClassDifference.firstParam_eq_none {definition stub : List Param} {index : Nat}
    (h : definition.map (·.ty) = stub.map (·.ty)) : firstParam index definition stub = none := by
  induction definition generalizing stub index with
  | nil => cases stub <;> rfl
  | cons l ls ih =>
    cases stub with
    | nil => rfl
    | cons r rs =>
      rw [List.map_cons, List.map_cons, List.cons.injEq] at h
      simp [firstParam, h.1, ih h.2]

theorem find?_name_eq {fields : List Field} (nodup : (fields.map (·.name)).Nodup) {field : Field}
    (h : field ∈ fields) : fields.find? (·.name = field.name) = some field := by
  obtain ⟨found, hfound⟩ : ∃ found, fields.find? (·.name = field.name) = some found := by
    rw [← Option.isSome_iff_exists, List.find?_isSome]
    exact ⟨field, h, by simp⟩
  have same : found.name = field.name := by simpa using List.find?_some hfound
  rw [hfound, List.inj_on_of_nodup_map nodup (List.mem_of_find?_eq_some hfound) h same]

theorem ClassHead.exists_field? {head : ClassHead} {field : Field} (h : field ∈ head.fields) :
    ∃ found, head.field? field.name = some found := by
  rw [← Option.isSome_iff_exists, ClassHead.field?, List.find?_isSome]
  exact ⟨field, h, by simp⟩

/-- Fields can only differ under a name that one of the two has. -/
instance ClassHead.decidableSameFields (definition stub : ClassHead) :
    Decidable (∀ name, (definition.field? name).map (·.ty) = (stub.field? name).map (·.ty)) :=
  decidable_of_iff (∀ name ∈ (definition.fields ++ stub.fields).map Field.name,
      (definition.field? name).map (·.ty) = (stub.field? name).map (·.ty)) (by
    have absent : ∀ (head : ClassHead) (name : Name), name ∉ head.fields.map Field.name →
        head.field? name = none := fun head name h => List.find?_eq_none.mpr fun field hfield => by
      simpa using fun same => h (List.mem_map.mpr ⟨field, hfield, same⟩)
    refine ⟨fun each name => ?_, fun each name _ => each name⟩
    by_cases h : name ∈ (definition.fields ++ stub.fields).map Field.name
    · exact each name h
    · rw [List.map_append, List.mem_append, not_or] at h
      rw [absent definition name h.1, absent stub name h.2])

namespace OpKind

/-- A stub states the interface of a definition: its ports, or the types of its parameters and its
fields as a map from their names to types. -/
def Matches : OpKind → OpKind → Prop
  | .moduleDef _ definition, .moduleStub stub => definition.ports = stub.ports
  | .classDef definition, .classStub stub =>
    definition.params.map (·.ty) = stub.params.map (·.ty) ∧
    (∀ name, (definition.field? name).map (·.ty) = (stub.field? name).map (·.ty)) ∧
    (stub.fields.map (·.name)).Nodup
  | _, _ => False

instance : (definition stub : OpKind) → Decidable (definition.Matches stub)
  | .moduleDef _ definition, .moduleStub stub =>
    inferInstanceAs (Decidable (definition.ports = stub.ports))
  | .classDef definition, .classStub stub =>
    have := definition.decidableSameFields stub
    inferInstanceAs (Decidable (definition.params.map (·.ty) = stub.params.map (·.ty) ∧
      (∀ name, (definition.field? name).map (·.ty) = (stub.field? name).map (·.ty)) ∧
      (stub.fields.map (·.name)).Nodup))
  | .moduleDef _ _, .classDef _ | .moduleDef _ _, .classStub _ | .moduleDef _ _, .moduleDef _ _
  | .moduleDef _ _, .object _ _ | .moduleDef _ _, .generic _ | .classDef _, .classDef _
  | .classDef _, .moduleDef _ _ | .classDef _, .moduleStub _ | .classDef _, .object _ _
  | .classDef _, .generic _ | .classStub _, _ | .moduleStub _, _ | .object _ _, _
  | .generic _, _ => .isFalse id

theorem Matches.agrees {definition stub : OpKind} (h : definition.Matches stub) :
    definition.Agrees stub := by
  cases definition with
  | moduleDef visibility definition =>
    cases stub with
    | moduleStub stub =>
      have same : definition.ports = stub.ports := h
      simp [Agrees, PortDifference.find, same, PortDifference.first_self]
    | _ => cases h
  | classDef definition =>
    cases stub with
    | classStub stub =>
      obtain ⟨params, fields, nodup⟩ := h
      have count : definition.params.length = stub.params.length := by
        simpa using congrArg List.length params
      have covered : stub.fields.findSome? (ClassDifference.ofField definition) = none := by
        refine List.findSome?_eq_none_iff.mpr fun field hfield => ?_
        have stated : stub.field? field.name = some field := find?_name_eq nodup hfield
        have same := fields field.name
        rw [stated] at same
        obtain ⟨found, hfound, hty⟩ := Option.map_eq_some_iff.mp same
        simp [ClassDifference.ofField, hfound, hty]
      have complete : definition.fields.find? (fun f => (stub.field? f.name).isNone) = none := by
        refine List.find?_eq_none.mpr fun field hfield => ?_
        obtain ⟨found, hfound⟩ := ClassHead.exists_field? hfield
        have same := fields field.name
        rw [hfound] at same
        obtain ⟨other, hother, -⟩ := Option.map_eq_some_iff.mp same.symm
        simp [hother]
      simp [Agrees, ClassDifference.find, count, ClassDifference.firstParam_eq_none params, covered,
        complete]
    | _ => cases h
  | _ => cases h

def declaredClass? : OpKind → Option ClassHead
  | .classDef head | .classStub head => some head
  | _ => none

theorem declaration?_of_declaredClass? {kind : OpKind} {head : ClassHead}
    (h : kind.declaredClass? = some head) : kind.declaration? = some (.classes, head.name) := by
  cases kind <;> cases h <;> rfl

theorem exists_classDef {kind : OpKind} {name : Name} (isDefinition : kind.isDefinition = true)
    (declares : kind.declaration? = some (.classes, name)) : ∃ head, kind = .classDef head := by
  cases kind with
  | classDef head => exact ⟨head, rfl⟩
  | moduleDef visibility head => cases declares
  | _ => cases isDefinition

def object? : OpKind → Option (Name × List TyId)
  | .object ofClass actuals => some (ofClass, actuals)
  | _ => none

theorem object?_eq_some {kind : OpKind} {ofClass : Name} {actuals : List TyId} :
    kind.object? = some (ofClass, actuals) ↔ kind = .object ofClass actuals := by
  cases kind <;> simp [object?]

def stubParams : OpKind → List TyId
  | .classStub head => head.params.map (·.ty)
  | _ => []

end OpKind

instance (types : TyStore) (classes : List ClassHead) (names : List Name) (n : Node) :
    Decidable (n.Fits types classes names) :=
  decidable_of_iff
    ((∀ object ∈ n.kind.object?, ∃ head ∈ classes, head.name = object.1 ∧
        head.params.map (·.ty) = object.2 ∧
          ∃ result ∈ types.lookup (.instanceOf object.1), n.results = [result]) ∧
      (∃ mentioned ∈ (n.types.mapM types.classes).toOption,
        ∀ name ∈ mentioned.flatten, ∃ head ∈ classes, head.name = name) ∧
      ∀ name ∈ n.refs, name ∈ names) (by
    simp only [Option.mem_def, toOption_eq_some]
    constructor
    · rintro ⟨object, instances, symbols⟩
      refine ⟨fun ofClass actuals hkind => ?_, instances, symbols⟩
      obtain ⟨head, hhead, hname, hparams, result, hlookup, hresult⟩ :=
        object (ofClass, actuals) (by rw [hkind]; rfl)
      exact ⟨head, hhead, hname, hparams, result, hresult, hlookup⟩
    · rintro ⟨object, instances, symbols⟩
      refine ⟨fun (ofClass, actuals) hkind => ?_, instances, symbols⟩
      obtain ⟨head, hhead, hname, hparams, result, hresult, hlookup⟩ :=
        object ofClass actuals (OpKind.object?_eq_some.mp hkind)
      exact ⟨head, hhead, hname, hparams, result, hlookup, hresult⟩)

def LinkUnit.declaredClasses (u : LinkUnit) : List ClassHead :=
  u.forest.filterMap (·.root.kind.declaredClass?)

namespace Design

def definitionsOf (d : Design) (space : Space) (name : Name) : List (Nat × Tree) :=
  d.definitions.filter (·.2.declares space name)

/-- What a design has to satisfy for no link of it to fail. -/
structure Linkable (d : Design) : Prop where
  unique : d.UniqueNames
  /-- No name is that of a class in one unit and that of a module in another. -/
  apart : ∀ u ∈ d.units, ∀ t ∈ u.forest, ∀ v ∈ d.units, ∀ t' ∈ v.forest,
    ∀ name ∈ t.root.kind.declared?, t.declares .classes name = true →
      t'.declares .modules name = false
  /-- The name of an exported module is that of no other. -/
  exported : ∀ u ∈ d.units, ∀ t ∈ u.forest, t.root.kind.isExported = true →
    ∀ name ∈ t.root.kind.declared?, (d.definitionsOf .modules name).length ≤ 1
  /-- A name with a stub has one definition, which every stub of it matches. -/
  stubs : ∀ u ∈ d.units, ∀ t ∈ u.forest, t.root.kind.isStub = true →
    ∀ declaration ∈ t.root.kind.declaration?,
      (d.definitionsOf declaration.1 declaration.2).length = 1 ∧
      ∀ e ∈ d.definitionsOf declaration.1 declaration.2, e.2.root.kind.Matches t.root.kind
  /-- A class in the parameters of a stub is not one that several units have for themselves. -/
  shared : ∀ u ∈ d.units, ∀ t ∈ u.forest, ∀ id ∈ t.root.kind.stubParams,
    ∀ names ∈ (d.types.classes id).toOption, ∀ name ∈ names,
      (d.definitionsOf .classes name).length < 2
  /-- Every operation that survives fits what its own unit declares. -/
  operations : ∀ e ∈ d.definitions, ∀ u ∈ d.units[e.1]?, ∀ n ∈ e.2.nodes,
    n.Fits d.types u.declaredClasses u.declaredNames

variable {d : Design} {space : Space} {name : Name}

theorem length_definitionsOf (d : Design) (space : Space) (name : Name) :
    (d.definitionsOf space name).length =
      ((d.declarers space name).filter (!·.2.root.kind.isStub)).length := by
  rw [definitionsOf, filter_definitions, List.length_map]

namespace Linkable

theorem exported_alone (h : d.Linkable) :
    ExportedAlone ((d.declarers space name).map (·.2.root.kind)) := by
  rintro _ hkind exported
  obtain ⟨⟨unit, t⟩, he, rfl⟩ := List.mem_map.mp hkind
  obtain ⟨u, hu, ht, hdeclares⟩ := mem_declarers.mp he
  have isModule : space = .modules := by
    have declaration := Tree.declares_iff.mp hdeclares
    cases hkind : t.root.kind <;> simp_all [OpKind.isExported, OpKind.declaration?]
  subst isModule
  have alone := h.exported u (List.mem_of_getElem? hu) t ht exported name
    (Tree.declared?_of_declares hdeclares)
  rw [length_definitionsOf] at alone
  rwa [List.filter_map, List.length_map]

theorem exists_only (h : d.Linkable) {e : Nat × Tree} (he : e ∈ d.declarers space name)
    (stub : e.2.root.kind.isStub = true) :
    ∃ definition, (d.declarers space name).filter (!·.2.root.kind.isStub) = [definition] ∧
      ∀ e' ∈ d.declarers space name, e'.2.root.kind.isStub = true →
        definition.2.root.kind.Matches e'.2.root.kind := by
  have stated : ∀ e' ∈ d.declarers space name, e'.2.root.kind.isStub = true →
      (d.definitionsOf space name).length = 1 ∧
        ∀ e ∈ d.definitionsOf space name, e.2.root.kind.Matches e'.2.root.kind := by
    rintro ⟨unit, t⟩ he' stub'
    obtain ⟨u, hu, ht, hdeclares⟩ := mem_declarers.mp he'
    exact h.stubs u (List.mem_of_getElem? hu) t ht stub' (space, name)
      (Tree.declares_iff.mp hdeclares)
  have single := (stated e he stub).1
  rw [length_definitionsOf] at single
  obtain ⟨definition, only⟩ := List.length_eq_one_iff.mp single
  refine ⟨definition, only, fun e' he' stub' => ?_⟩
  have same : definition.2.withoutStubs.root.kind = definition.2.root.kind := by
    rw [Tree.root_withoutStubs]
  rw [← same]
  refine (stated e' he' stub').2 (definition.1, definition.2.withoutStubs) ?_
  rw [definitionsOf, filter_definitions, only]
  exact List.mem_cons_self

theorem acceptable (h : d.Linkable) : d.Acceptable space name := by
  refine ⟨?_, h.exported_alone⟩
  by_cases stubbed : ∃ e ∈ d.declarers space name, e.2.root.kind.isStub = true
  · obtain ⟨e, he, stub⟩ := stubbed
    obtain ⟨definition, only, matching⟩ := h.exists_only he stub
    refine ⟨false, .together definition.2.root.kind ?_ ?_⟩
    · rw [List.filter_map]
      exact congrArg (List.map (·.2.root.kind)) only
    · intro _ hkind stub'
      obtain ⟨e', he', rfl⟩ := List.mem_map.mp hkind
      exact (matching e' he' stub').agrees
  · have defined : ∀ kind ∈ (d.declarers space name).map (·.2.root.kind), kind.isStub = false := by
      intro _ hkind
      obtain ⟨e, he, rfl⟩ := List.mem_map.mp hkind
      simpa using fun stub => stubbed ⟨e, he, stub⟩
    by_cases single : ((d.declarers space name).map (·.2.root.kind)).length = 1
    · obtain ⟨kind, only⟩ := List.length_eq_one_iff.mp single
      refine ⟨false, .together kind ?_ fun stub hstub isStub => ?_⟩
      · rw [only, List.filter_cons_of_pos (by simp [defined kind (only ▸ List.mem_cons_self)]),
          List.filter_nil]
      · rw [defined stub hstub] at isStub
        cases isStub
    · exact ⟨true, .apart defined single⟩

theorem exists_phases {lexicon : Lexicon} (h : d.Linkable) (wf : d.WellFormed lexicon)
    (covered : d.Covered) (spoken : d.Spoken lexicon) (options : LinkOptions) :
    Nonempty (Phases options d lexicon) := by
  obtain ⟨naming, named⟩ := exists_naming wf.forest covered wf.named spoken.tags
    (fun u hu t ht _ => spoken.members u hu t ht) (fun _ _ _ => h.acceptable) options
  obtain ⟨remaps, types, built⟩ := TyRemap.exists_buildAll d.types
    (TyStore.denoted_ids wf.closed wf.acyclic) d.units.length naming.renames
  obtain ⟨p, -⟩ := Linkage.exists_phases wf.forest covered named built
  exact ⟨p⟩

theorem not_clash (h : d.Linkable) (policy : RenamePolicy) : ¬ d.Clash policy := by
  rintro ⟨⟨unit, t⟩, he, ⟨unit', t'⟩, he', name, hname, hclass, hmodule, -⟩
  obtain ⟨u, hu, s, hs, -, rfl⟩ := mem_definitions.mp he
  obtain ⟨u', hu', s', hs', -, rfl⟩ := mem_definitions.mp he'
  rw [Tree.declares_withoutStubs] at hclass hmodule
  rw [Tree.root_withoutStubs] at hname
  have other := h.apart u (List.mem_of_getElem? hu) s hs u' (List.mem_of_getElem? hu') s' hs' name
    hname hclass
  rw [hmodule] at other
  cases other

end Linkable

end Design

namespace LinkUnit

variable {u : LinkUnit}

theorem mem_declaredClasses {head : ClassHead} :
    head ∈ u.declaredClasses ↔ ∃ t ∈ u.forest, t.root.kind.declaredClass? = some head :=
  List.mem_filterMap

end LinkUnit

namespace Phases

variable {options : LinkOptions} {d : Design} {lexicon : Lexicon} {unit : Nat} {u : LinkUnit}

/-- A class that only one unit defines is renamed nowhere. -/
theorem apply_eq_self (p : Phases options d lexicon) (wf : d.WellFormed lexicon) (h : d.Linkable)
    (hu : u ∈ d.units) {head : ClassHead} (hhead : head ∈ u.declaredClasses)
    (few : (d.definitionsOf .classes head.name).length < 2) (unit' : Nat) :
    p.naming.renames.apply unit' head.name = head.name := by
  refine Renaming.apply_eq_of_none (Option.not_isSome_iff_eq_none.mp fun renamed => ?_)
  obtain ⟨space, hmem⟩ := (p.isSome_get?_iff wf.forest unit' head.name).mp renamed
  have told : d.apart space head.name = true := by
    by_contra together
    rw [Design.renamed, if_neg together] at hmem
    cases hmem
  cases space with
  | classes =>
    rw [Design.length_definitionsOf] at few
    rw [Design.apart, Bool.and_eq_true, List.all_eq_true, decide_eq_true_eq] at told
    rw [List.filter_eq_self.mpr told.1] at few
    omega
  | modules =>
    obtain ⟨⟨_, t'⟩, ht', -⟩ := List.mem_map.mp (Design.renamed_subset _ _ hmem)
    obtain ⟨u', hu', hmem', hmodule⟩ := Design.mem_declarers.mp ht'
    obtain ⟨t, ht, hclass⟩ := LinkUnit.mem_declaredClasses.mp hhead
    have declares := Tree.declares_iff.mpr (OpKind.declaration?_of_declaredClass? hclass)
    have other := h.apart u hu t ht u' (List.mem_of_getElem? hu') t' hmem' head.name
      (Tree.declared?_of_declares declares) declares
    rw [hmodule] at other
    cases other

/-- So a type that mentions only such classes is the same in every unit. -/
theorem remap_eq_self (p : Phases options d lexicon) (wf : d.WellFormed lexicon) (h : d.Linkable)
    (hu : u ∈ d.units) {id : TyId} {names : List Name} (hid : id.index < d.types.size)
    (hnames : d.types.classes id = .ok names)
    (declared : ∀ name ∈ names, ∃ head ∈ u.declaredClasses, head.name = name)
    (few : ∀ name ∈ names, (d.definitionsOf .classes name).length < 2) {unit' : Nat}
    (hunit' : unit' < d.units.length) : p.remap unit' id = id := by
  obtain ⟨t, ht⟩ := TyStore.exists_denotes wf.closed wf.acyclic hid
  obtain rfl : t.classes = names := Except.ok.inj (ht.classes_eq.symm.trans hnames)
  refine (p.substituted hunit' hid).eq_self ht fun name hname => ?_
  obtain ⟨head, hhead, rfl⟩ := declared name hname
  exact p.apply_eq_self wf h hu hhead (few _ hname) unit'

theorem remap_stubParams (p : Phases options d lexicon) (wf : d.WellFormed lexicon)
    (h : d.Linkable) (hu : u ∈ d.units) {t : Tree} (ht : t ∈ u.forest) {head : ClassHead}
    (hstub : t.root.kind = .classStub head) {definition : Nat × Tree}
    (hmem : definition ∈ d.definitionsOf .classes head.name) {id : TyId}
    (hid : id ∈ head.params.map (·.ty)) {unit' : Nat} (hunit' : unit' < d.units.length) :
    p.remap unit' id = id := by
  obtain ⟨place, t'⟩ := definition
  obtain ⟨hdefinition, -⟩ := List.mem_filter.mp hmem
  obtain ⟨v, hv, s, hs, -, rfl⟩ := Design.mem_definitions.mp hdefinition
  have matching := (h.stubs u hu t ht (by rw [hstub]; rfl) (.classes, head.name)
    (by rw [hstub]; rfl)).2 _ hmem
  rw [Tree.root_withoutStubs, hstub] at matching
  have mentioned : id ∈ s.root.types := by
    cases hkind : s.root.kind with
    | classDef definition =>
      rw [hkind] at matching
      rw [← matching.1] at hid
      simp only [Node.types, hkind, OpKind.types, ClassHead.types]
      exact List.mem_append_right _ (List.mem_append_left _ hid)
    | _ => rw [hkind] at matching; cases matching
  have root : s.root ∈ s.withoutStubs.nodes := by
    rw [← Tree.root_withoutStubs]
    exact Tree.root_mem_nodes _
  obtain ⟨all, hall, instances⟩ := (h.operations _ hdefinition v hv _ root).instances
  obtain ⟨names, hnames, hclasses⟩ := forall₂_exists_right (mapM_eq_ok.mp hall) mentioned
  have inside : id.index < d.types.size :=
    wf.typed v (List.mem_of_getElem? hv) s hs s.root s.root_mem_nodes id mentioned
  refine p.remap_eq_self wf h (List.mem_of_getElem? hv) inside hclasses (fun name hname => ?_)
    (fun name hname => ?_) hunit'
  · exact instances name (List.mem_flatten.mpr ⟨names, hnames, hname⟩)
  · exact h.shared u hu t ht id (by rw [hstub]; exact hid) names
      (toOption_eq_some.mpr hclasses) name hname

theorem map_remap_stubParams (p : Phases options d lexicon) (wf : d.WellFormed lexicon)
    (h : d.Linkable) (hu : u ∈ d.units) {t : Tree} (ht : t ∈ u.forest) {head : ClassHead}
    (hstub : t.root.kind = .classStub head) {definition : Nat × Tree}
    (hmem : definition ∈ d.definitionsOf .classes head.name) {unit' : Nat}
    (hunit' : unit' < d.units.length) :
    (head.params.map (·.ty)).map (p.remap unit') = head.params.map (·.ty) :=
  (List.map_congr_left fun _ hid => p.remap_stubParams wf h hu ht hstub hmem hid hunit').trans
    (List.map_id _)

/-- A class that a unit declares is defined in the linked unit under its new name, with parameters
of the types that they have for that unit. -/
theorem exists_definedClass (p : Phases options d lexicon) (wf : d.WellFormed lexicon)
    (h : d.Linkable) (hu : d.units[unit]? = some u) {head : ClassHead}
    (hhead : head ∈ u.declaredClasses) :
    ∃ head' ∈ (joined p.rewritten.units).definedClasses,
      head'.name = p.naming.renames.apply unit head.name ∧
      head'.params.map (·.ty) = (head.params.map (·.ty)).map (p.remap unit) := by
  obtain ⟨t, ht, hclass⟩ := LinkUnit.mem_declaredClasses.mp hhead
  have hmem : u ∈ d.units := List.mem_of_getElem? hu
  have hdeclares := Tree.declares_iff.mpr (OpKind.declaration?_of_declaredClass? hclass)
  obtain ⟨⟨place, t'⟩, only, named, own, shared⟩ := p.exists_target wf h.unique
    (Design.mem_declarers.mpr ⟨u, hu, ht, hdeclares⟩)
  obtain ⟨hdefinition, hmoved⟩ := List.mem_filter.mp (only ▸ List.mem_cons_self :
    (place, t') ∈ d.definitions.filter _)
  obtain ⟨v, hv, s, hs, isDefinition, rfl⟩ := Design.mem_definitions.mp hdefinition
  rw [Tree.declares_withoutStubs] at named
  obtain ⟨definition, hkind⟩ := OpKind.exists_classDef isDefinition (Tree.declares_iff.mp named)
  have moved : (p.moved (place, s.withoutStubs)).root.kind = .classDef
      (definition.substitute (p.naming.renames.apply place) (p.remap place)) := by
    rw [Phases.moved, Tree.root_mapNodes, Tree.root_withoutStubs]
    simp only [Node.substitute, hkind, OpKind.substitute]
  refine ⟨_, LinkUnit.mem_definedClasses.mpr ⟨p.moved (place, s.withoutStubs), ?_, moved⟩, ?_, ?_⟩
  · rw [(joined_forest _).2, p.forest_eq wf.forest]
    exact List.mem_map_of_mem hdefinition
  · simpa [Tree.declares, moved, OpKind.declaration?] using hmoved
  · simp only [ClassHead.substitute, List.map_map, Function.comp_def]
    -- a stub stands for a definition elsewhere, with the same types there; a definition for itself
    cases hstub : t.root.kind with
    | classStub stub =>
      rw [hstub] at hclass
      obtain rfl : stub = head := Option.some.inj hclass
      have here : (place, s.withoutStubs) ∈ d.definitionsOf .classes stub.name :=
        List.mem_filter.mpr ⟨hdefinition, by rwa [Tree.declares_withoutStubs]⟩
      have matching := (h.stubs u hmem t ht (by rw [hstub]; rfl) (.classes, stub.name)
        (by rw [hstub]; rfl)).2 _ here
      rw [Tree.root_withoutStubs, hstub, hkind] at matching
      have same : definition.params.map (·.ty) = stub.params.map (·.ty) := matching.1
      have left := p.map_remap_stubParams wf h hmem ht hstub here
        (List.getElem?_eq_some_iff.mp hv).1
      have right := p.map_remap_stubParams wf h hmem ht hstub here
        (List.getElem?_eq_some_iff.mp hu).1
      rw [← same] at left
      simp only [List.map_map, Function.comp_def] at left right
      rw [left, right, same]
    | classDef found =>
      obtain rfl : place = unit := own (by rw [hstub]; rfl)
      obtain rfl : u = v := Option.some.inj (hu.symm.trans hv)
      obtain rfl := h.unique.eq hmem ht hs hdeclares named
      rw [hkind] at hclass
      obtain rfl : definition = head := Option.some.inj hclass
      rfl
    | _ => rw [hstub] at hclass; cases hclass

theorem exists_declaredName (p : Phases options d lexicon) (wf : d.WellFormed lexicon)
    (unique : d.UniqueNames) (hu : d.units[unit]? = some u) {name : Name}
    (hname : name ∈ u.declaredNames) :
    p.naming.renames.apply unit name ∈ (joined p.rewritten.units).declaredNames := by
  obtain ⟨t, ht, hdeclared⟩ := LinkUnit.mem_declaredNames.mp hname
  rw [OpKind.declared?_eq, Option.map_eq_some_iff] at hdeclared
  obtain ⟨⟨space, _⟩, hdeclaration, rfl⟩ := hdeclared
  obtain ⟨target, only, -⟩ := p.exists_target wf unique
    (Design.mem_declarers.mpr ⟨u, hu, ht, Tree.declares_iff.mpr hdeclaration⟩)
  obtain ⟨hdefinition, hmoved⟩ := List.mem_filter.mp (only ▸ List.mem_cons_self :
    target ∈ d.definitions.filter _)
  refine LinkUnit.mem_declaredNames.mpr ⟨p.moved target, ?_, Tree.declared?_of_declares hmoved⟩
  rw [(joined_forest _).2, p.forest_eq wf.forest]
  exact List.mem_map_of_mem hdefinition

/-- What fits the declarations of its unit fits those of the linked unit after renaming. -/
theorem fits (p : Phases options d lexicon) (wf : d.WellFormed lexicon) (h : d.Linkable)
    {e : Nat × Tree} (he : e ∈ d.definitions) {n : Node} (hn : n ∈ e.2.nodes) :
    (n.substitute (p.naming.renames.apply e.1) (p.remap e.1)).Fits p.rewritten.types
      (joined p.rewritten.units).definedClasses
      (joined p.rewritten.units).declaredNames := by
  obtain ⟨unit, t⟩ := e
  obtain ⟨u, hu, t', ht', -, rfl⟩ := Design.mem_definitions.mp he
  have hunit : unit < d.units.length := (List.getElem?_eq_some_iff.mp hu).1
  refine (h.operations _ he u hu n hn).substitute (fun head => p.exists_definedClass wf h hu)
    (fun id _ name hlookup => ?_) (fun id hid => ?_)
    fun name => p.exists_declaredName wf h.unique hu
  · exact (p.substituted hunit (TyStore.lt_size_of_get (TyStore.get_of_lookup hlookup))).lookup
      hlookup
  · have inside := wf.typed u (List.mem_of_getElem? hu) t' ht' n
      (t'.nodes_withoutStubs_sublist.subset hn) id hid
    obtain ⟨tree, htree⟩ := TyStore.exists_denotes wf.closed wf.acyclic inside
    exact ⟨tree, htree, p.denotes_remap hunit htree⟩

end Phases

/-- No link of such a design fails that has its workers, whatever the options, and none of them logs
anything. -/
theorem linkable_links {d : Design} {lexicon : Lexicon} (wf : d.WellFormed lexicon)
    (covered : d.Covered) (spoken : d.Spoken lexicon) (h : d.Linkable) {pool : WorkerPool}
    (options : LinkOptions) (starts : pool.Starts options.threads) (log : Log) :
    ∃ linked summary, link pool options d lexicon log = .ok linked ∧ linked.result = .ok summary ∧
      linked.log = log := by
  obtain ⟨p⟩ := h.exists_phases wf covered spoken options
  have fine : (joined p.rewritten.units).misuses p.rewritten.types p.naming.lexicon =
      .ok [] := by
    obtain ⟨forest, htrees⟩ := joined_forest p.rewritten.units
    refine (LinkUnit.misuses_eq_nil_iff forest p.known_declaredNames).mpr
      ⟨?_, fun t ht n hn => ?_⟩
    · exact (p.nodup_declaredNames_iff wf h.unique).mpr (h.not_clash options.policy)
    · rw [htrees, p.forest_eq wf.forest] at ht
      obtain ⟨e, he, rfl⟩ := List.mem_map.mp ht
      rw [Phases.moved, Tree.nodes_mapNodes] at hn
      obtain ⟨before, hbefore, rfl⟩ := List.mem_map.mp hn
      exact p.fits wf h he hbefore
  have counted := (p.covered_iff wf.forest).mpr covered
  rw [link_of_starts starts, p.linkUnits_eq, finish_eq counted p.summary log fun _ => fine]
  exact ⟨_, _, rfl, rfl, rfl⟩

def busNames : Lexicon := ⟨#["cell", "bus", "mux2", "width", "uses"], by decide⟩

def busObject (ofClass : Name) (actuals : List TyId) (result : TyId) : Op :=
  ⟨⟨.object ofClass actuals, .dummy, [], [result]⟩, []⟩

/-- Two units, each with a class and a module of its own under the same names, and an instance of
the class in the module. The first one also has an instance of the bus of the second. -/
def busDesign : Design where
  types := ⟨#[.bool, .instanceOf ⟨0⟩, .instanceOf ⟨1⟩]⟩
  units :=
    [muxUnit
      [muxOp (.classDef ⟨⟨0⟩, [], []⟩) [] [],
        muxOp (.classStub ⟨⟨1⟩, [⟨⟨3⟩, ⟨0⟩⟩], [⟨⟨3⟩, ⟨0⟩, .dummy⟩]⟩) [] [],
        muxOp (.moduleDef .local ⟨⟨2⟩, []⟩) [⟨1⟩] [[⟨3⟩, ⟨4⟩]],
        busObject ⟨0⟩ [] ⟨1⟩,
        busObject ⟨1⟩ [⟨0⟩] ⟨2⟩]
      [⟨0⟩, ⟨1⟩, ⟨2⟩],
    muxUnit
      [muxOp (.classDef ⟨⟨0⟩, [], []⟩) [] [],
        muxOp (.classDef ⟨⟨1⟩, [⟨⟨3⟩, ⟨0⟩⟩], [⟨⟨3⟩, ⟨0⟩, .dummy⟩]⟩) [] [],
        muxOp (.moduleDef .local ⟨⟨2⟩, []⟩) [⟨2⟩] [[⟨3⟩]],
        busObject ⟨0⟩ [] ⟨1⟩]
      [⟨0⟩, ⟨1⟩, ⟨2⟩]]

theorem busDesign_wellFormed : busDesign.WellFormed busNames where
  forest := by decide
  typed := by decide
  closed := TyStore.Ordered.closed (by decide)
  acyclic := TyStore.Ordered.acyclic (by decide)
  named := by decide

theorem busDesign_legible : busDesign.Legible busNames where
  tags := by decide
  words := by decide
  classes := by decide

theorem busDesign_linkable : busDesign.Linkable where
  unique := by decide
  apart := by decide
  exported := by decide
  stubs := by decide
  shared := by decide
  operations := by decide

/-- The two units link, with the instances of their classes told apart. -/
theorem linkable_links_bus :
    busDesign.WellFormed busNames ∧ busDesign.Covered ∧ busDesign.Spoken busNames ∧
      busDesign.Linkable ∧ ∃ linked summary,
        link .granted .standard busDesign busNames .empty = .ok linked ∧
          linked.result = .ok summary ∧ linked.log = .empty := by
  have covered : busDesign.Covered := by decide
  have starts : WorkerPool.granted.Starts LinkOptions.standard.threads := rfl
  have spoken := busDesign_legible.spoken
  exact ⟨busDesign_wellFormed, covered, spoken, busDesign_linkable,
    linkable_links busDesign_wellFormed covered spoken busDesign_linkable .standard starts .empty⟩

end Linkage
