import Linkage.Proofs.Binding
/-!
Interfaces across a link. A stub agrees with the definition it stands for in its types as they are
before the link. Afterwards the definition shows these types under the names of its own unit, which
the unit of the stub need not share: a class that both units have to themselves gets them apart.
-/
namespace Linkage

/-- What a declaration shows to other units, its types given in some way. -/
inductive Interface (α : Type) where
  | ofModule (ports : List (Name × Direction × α))
  | ofClass (params : List α) (fields : Name → Option α)

namespace Interface

variable {α β : Type}

def map (f : α → β) : Interface α → Interface β
  | .ofModule ports => .ofModule (ports.map fun (name, direction, a) => (name, direction, f a))
  | .ofClass params fields => .ofClass (params.map f) fun name => (fields name).map f

def Shows : Interface α → α → Prop
  | .ofModule ports, a => ∃ name direction, (name, direction, a) ∈ ports
  | .ofClass params fields, a => a ∈ params ∨ ∃ name, fields name = some a

theorem map_eq_iff {f g : α → β} {i : Interface α} :
    i.map f = i.map g ↔ ∀ a, i.Shows a → f a = g a := by
  cases i with
  | ofModule ports =>
    simp only [map, Shows, ofModule.injEq, List.map_inj_left, Prod.forall, Prod.mk.injEq, true_and]
    constructor
    · rintro same a ⟨name, direction, hmem⟩
      exact same name direction a hmem
    · intro same name direction a hmem
      exact same a ⟨name, direction, hmem⟩
  | ofClass params fields =>
    simp only [map, Shows, ofClass.injEq, List.map_inj_left]
    constructor
    · rintro ⟨hparams, hfields⟩ a (hmem | ⟨name, hname⟩)
      · exact hparams a hmem
      · simpa [hname] using congrFun hfields name
    · intro same
      refine ⟨fun a hmem => same a (.inl hmem), ?_⟩
      funext name
      cases hname : fields name with
      | none => rfl
      | some a => rw [Option.map_some, Option.map_some, same a (.inr ⟨name, hname⟩)]

theorem map_map {γ : Type} (f : α → β) (g : β → γ) (i : Interface α) :
    (i.map f).map g = i.map (g ∘ f) := by
  cases i <;> simp [map]

end Interface

namespace OpKind

variable {α β : Type}

def interface? (f : TyId → α) : OpKind → Option (Interface α)
  | .classDef head | .classStub head =>
    some (.ofClass (head.params.map (f ·.ty)) fun name => (head.field? name).map (f ·.ty))
  | .moduleDef _ head | .moduleStub head =>
    some (.ofModule (head.ports.map fun port => (port.name, port.direction, f port.ty)))
  | .object _ _ | .generic _ => none

theorem exists_interface?_of_isStub {kind : OpKind} (h : kind.isStub = true) (f : TyId → α) :
    ∃ shown, kind.interface? f = some shown := by
  cases kind with
  | classStub head => exact ⟨_, rfl⟩
  | moduleStub head => exact ⟨_, rfl⟩
  | _ => cases h

theorem map_interface? (f : TyId → α) (g : α → β) (kind : OpKind) :
    (kind.interface? f).map (Interface.map g) = kind.interface? (g ∘ f) := by
  cases kind <;> simp [interface?, Interface.map, Function.comp_def]

theorem interface?_congr {f g : TyId → α} {kind : OpKind} (h : ∀ id ∈ kind.types, f id = g id) :
    kind.interface? f = kind.interface? g := by
  have heads : ∀ head : ClassHead, (∀ id ∈ head.types, f id = g id) →
      (head.params.map (f ·.ty) = head.params.map (g ·.ty)) ∧
        ∀ name, (head.field? name).map (f ·.ty) = (head.field? name).map (g ·.ty) := by
    intro head h
    simp only [ClassHead.types, List.mem_append, List.mem_map] at h
    refine ⟨List.map_congr_left fun param hparam => h _ (.inl ⟨param, hparam, rfl⟩), fun name => ?_⟩
    cases found : head.field? name with
    | none => rfl
    | some field =>
      have hfield : field ∈ head.fields := List.mem_of_find?_eq_some found
      rw [Option.map_some, Option.map_some, h _ (.inr ⟨field, hfield, rfl⟩)]
  have ports : ∀ head : ModuleHead, (∀ id ∈ head.types, f id = g id) →
      head.ports.map (fun port => (port.name, port.direction, f port.ty)) =
        head.ports.map fun port => (port.name, port.direction, g port.ty) := by
    intro head h
    refine List.map_congr_left fun port hport => ?_
    rw [h port.ty (List.mem_map.mpr ⟨port, hport, rfl⟩)]
  cases kind with
  | classDef head => simp only [interface?, (heads head h).1, (heads head h).2]
  | classStub head => simp only [interface?, (heads head h).1, (heads head h).2]
  | moduleDef visibility head => simp only [interface?, ports head h]
  | moduleStub head => simp only [interface?, ports head h]
  | object ofClass actuals => rfl
  | generic opcode => rfl

theorem interface?_substitute (s : Name → Name) (g : TyId → TyId) (f : TyId → α) (kind : OpKind) :
    (kind.substitute s g).interface? f = kind.interface? (f ∘ g) := by
  cases kind <;>
    simp [substitute, interface?, ClassHead.substitute, ModuleHead.substitute,
      ClassHead.field?, Function.comp_def]

end OpKind

theorem PortDifference.eq_of_first_eq_none {definition stub : List Port} {index : Nat}
    (same : definition.length = stub.length) (h : first index definition stub = none) :
    definition = stub := by
  induction definition generalizing stub index with
  | nil => exact (List.eq_nil_of_length_eq_zero same.symm).symm
  | cons l ls ih =>
    cases stub with
    | nil => cases same
    | cons r rs =>
      unfold first at h
      split at h
      · cases h
      · next hname =>
        split at h
        · cases h
        · next hdirection =>
          split at h
          · cases h
          · next hty =>
            have head : l = r := by
              cases l
              cases r
              simp only [ne_eq, not_not] at hname hdirection hty
              subst hname hdirection hty
              rfl
            rw [head, ih (Nat.succ.inj same) h]

theorem ClassDifference.map_ty_eq_of_firstParam_eq_none {definition stub : List Param} {index : Nat}
    (same : definition.length = stub.length) (h : firstParam index definition stub = none) :
    definition.map (·.ty) = stub.map (·.ty) := by
  induction definition generalizing stub index with
  | nil => rw [List.eq_nil_of_length_eq_zero same.symm]
  | cons l ls ih =>
    cases stub with
    | nil => cases same
    | cons r rs =>
      unfold firstParam at h
      split at h
      · cases h
      · next hty =>
        rw [List.map_cons, List.map_cons, ih (Nat.succ.inj same) h, not_not.mp hty]

/-- Fields are compared as a map: every field of the stub is one of the definition with the same
type, and no other field is. -/
theorem ClassDifference.field?_eq_of_find_eq_none {definition stub : ClassHead}
    (covered : stub.fields.findSome? (ofField definition) = none)
    (complete : definition.fields.find? (fun f => (stub.field? f.name).isNone) = none)
    (name : Name) : (definition.field? name).map (·.ty) = (stub.field? name).map (·.ty) := by
  cases hstub : stub.field? name with
  | some field =>
    have hmem : field ∈ stub.fields := List.mem_of_find?_eq_some hstub
    have hname : field.name = name := by simpa using List.find?_some hstub
    have unobjected := List.findSome?_eq_none_iff.mp covered field hmem
    unfold ofField at unobjected
    rw [hname] at unobjected
    split at unobjected
    · cases unobjected
    · next found hfound =>
      split at unobjected
      · cases unobjected
      · next hty =>
        rw [hfound, Option.map_some, Option.map_some, not_not.mp hty]
  | none =>
    cases hdefinition : definition.field? name with
    | none => rfl
    | some field =>
      have hmem : field ∈ definition.fields := List.mem_of_find?_eq_some hdefinition
      have hname : field.name = name := by simpa using List.find?_some hdefinition
      have stated := List.find?_eq_none.mp complete field hmem
      rw [hname, hstub] at stated
      exact absurd rfl stated

theorem OpKind.Agrees.interface?_eq {α : Type} {definition stub : OpKind}
    (h : definition.Agrees stub) (f : TyId → α) : definition.interface? f = stub.interface? f := by
  cases definition with
  | moduleDef visibility definition =>
    cases stub with
    | moduleStub stub =>
      have same : definition.ports = stub.ports := by
        simp only [Agrees, PortDifference.find] at h
        split at h
        · cases h
        · next hlength => exact PortDifference.eq_of_first_eq_none (not_not.mp hlength) h
      simp only [interface?, same]
    | _ => cases h
  | classDef definition =>
    cases stub with
    | classStub stub =>
      simp only [Agrees, ClassDifference.find] at h
      split at h
      · cases h
      · next hlength =>
        simp only [Option.or_eq_none_iff, Option.map_eq_none_iff] at h
        obtain ⟨hparams, covered, complete⟩ := h
        have params := congrArg (List.map f)
          (ClassDifference.map_ty_eq_of_firstParam_eq_none (not_not.mp hlength) hparams)
        have fields : ∀ name, (definition.field? name).map (f ·.ty) =
            (stub.field? name).map (f ·.ty) := by
          intro name
          have same := congrArg (Option.map f)
            (ClassDifference.field?_eq_of_find_eq_none covered complete name)
          rwa [Option.map_map, Option.map_map] at same
        rw [List.map_map, List.map_map] at params
        simp only [interface?, fields]
        exact congrArg (fun ps => some (Interface.ofClass ps _)) params
    | _ => cases h
  | _ => cases h

theorem Design.WellFormed.exists_trees {d : Design} {lexicon : Lexicon} (wf : d.WellFormed lexicon)
    {u : LinkUnit} (hu : u ∈ d.units) {t : Tree} (ht : t ∈ u.forest) :
    ∃ tree : TyId → TyTree, ∀ id ∈ t.root.kind.types, d.types.Denotes id (tree id) := by
  have each : ∀ id ∈ t.root.kind.types, ∃ tree, d.types.Denotes id tree := by
    intro id hid
    have mentioned : id ∈ t.root.types := List.mem_append_right _ hid
    exact TyStore.exists_denotes wf.closed wf.acyclic
      (wf.typed u hu t ht t.root t.root_mem_nodes id mentioned)
  choose! tree htree using each
  exact ⟨tree, htree⟩

/-- After a link a definition shows what its stubs stated, with the classes renamed as in the unit
of the definition. To the unit of a stub this is what the stub stated, under that unit's own
renaming, exactly if the two units rename alike the classes that the interface mentions. -/
theorem link_renames_interface {options : LinkOptions} {d : Design} {lexicon : Lexicon} {log : Log}
    {linked : Linked} {summary : Summary} (wf : d.WellFormed lexicon)
    (h : link pool options d lexicon log = .ok linked) (success : linked.result = .ok summary) :
    ∃ (naming : Naming) (merged : LinkUnit) (remap : Nat → TyId → TyId),
      d.naming options lexicon = .ok naming ∧
      linked.design.units = [merged] ∧
      (merged.forest = d.definitions.map fun e =>
        e.2.mapNodes (Node.substitute (naming.renames.apply e.1) (remap e.1))) ∧
      ∀ unit u, d.units[unit]? = some u → ∀ stub ∈ u.forest, stub.root.kind.isStub = true →
        ∀ space name, stub.declares space name = true →
          ∃ (definition : Nat × Tree) (shown : Interface TyTree),
            d.definitions.filter (·.2.declares space name) = [definition] ∧
            stub.root.kind.interface? d.types.tree = some (shown.map .ok) ∧
            (definition.2.mapNodes (Node.substitute (naming.renames.apply definition.1)
              (remap definition.1))).root.kind.interface? linked.design.types.tree =
                some ((shown.map (TyTree.rename (naming.renames.apply definition.1))).map .ok) ∧
            (shown.map (TyTree.rename (naming.renames.apply definition.1)) =
                shown.map (TyTree.rename (naming.renames.apply unit)) ↔
              ∀ t, shown.Shows t → ∀ c ∈ t.classes,
                naming.renames.apply definition.1 c = naming.renames.apply unit c) := by
  obtain ⟨p, hdesign, -, -, -⟩ := link_phases h success
  obtain ⟨-, htrees⟩ := joined_forest p.rewritten.units
  refine ⟨p.naming, joined p.rewritten.units, p.remap, p.naming_eq, by rw [hdesign],
    htrees.trans (p.forest_eq wf.forest), fun unit u hu stub hmem hstub space name hname => ?_⟩
  have hdeclarer : (unit, stub) ∈ d.declarers space name :=
    Design.mem_declarers.mpr ⟨u, hu, hmem, hname⟩
  obtain ⟨⟨place, t⟩, hdefinition, only, agree⟩ :=
    p.exists_definition_of_stub wf.forest hdeclarer hstub
  obtain ⟨v, hv, -, -⟩ := Design.mem_declarers.mp hdefinition
  have hplace : place < d.units.length := (List.getElem?_eq_some_iff.mp hv).1
  obtain ⟨tree, htree⟩ := wf.exists_trees (List.mem_of_getElem? hu) hmem
  obtain ⟨shown, hshown⟩ := OpKind.exists_interface?_of_isStub hstub tree
  refine ⟨(place, t.withoutStubs), shown, ?_, ?_, ?_, ?_⟩
  · rw [Design.filter_definitions, only]
    rfl
  · have before := OpKind.map_interface? tree (Except.ok : TyTree → Checked TyTree) stub.root.kind
    rw [hshown] at before
    refine Eq.trans (OpKind.interface?_congr fun id hid => ?_) before.symm
    exact TyStore.denotes_iff_tree.mp (htree id hid)
  · have after := OpKind.map_interface? tree (fun t => (.ok (t.rename
      (p.naming.renames.apply place)) : Checked TyTree)) stub.root.kind
    rw [hshown] at after
    rw [Interface.map_map]
    refine Eq.trans ?_ after.symm
    rw [hdesign, Tree.root_mapNodes, Tree.root_withoutStubs, Node.substitute,
      OpKind.interface?_substitute]
    refine (agree.interface?_eq _).trans (OpKind.interface?_congr fun id hid => ?_)
    exact TyStore.denotes_iff_tree.mp (p.denotes_remap hplace (htree id hid))
  · rw [Interface.map_eq_iff]
    exact forall₂_congr fun t _ => TyTree.rename_eq_iff

/-- The adder of the second unit shows what the stub in the first one stated, with the classes
renamed as in the second. -/
theorem link_renames_interface_mux :
    ∃ (linked : Linked) (summary : Summary) (naming : Naming) (merged : LinkUnit)
        (shown : Interface TyTree),
      link .granted .standard muxDesign muxNames .empty = .ok linked ∧
      linked.result = .ok summary ∧ muxDesign.naming .standard muxNames = .ok naming ∧
      linked.design.units = [merged] ∧
      OpKind.interface? muxDesign.types.tree (.moduleStub ⟨⟨1⟩, [⟨⟨4⟩, .input, ⟨0⟩⟩]⟩) =
        some (shown.map .ok) ∧
      ∃ adder ∈ merged.forest, adder.root.kind.interface? linked.design.types.tree =
        some ((shown.map (TyTree.rename (naming.renames.apply 1))).map .ok) := by
  obtain ⟨linked, summary, h, success⟩ := Design.links_iff.mp muxDesign_links
  obtain ⟨naming, merged, remap, hnaming, hunits, htrees, each⟩ :=
    link_renames_interface muxDesign_wellFormed h success
  obtain ⟨stub, hmem, hkind⟩ : ∃ stub ∈ (muxDesign.units[0]).forest, stub.root.kind =
      .moduleStub ⟨⟨1⟩, [⟨⟨4⟩, .input, ⟨0⟩⟩]⟩ := by decide
  obtain ⟨definition, shown, only, stated, moved, -⟩ := each 0 _ rfl stub hmem
    (by rw [hkind]; rfl) .modules ⟨1⟩ (by rw [Tree.declares, hkind]; rfl)
  obtain rfl : muxDesign.definitions[4] = definition := List.singleton_inj.mp only
  refine ⟨linked, summary, naming, merged, shown, h, success, hnaming, hunits, hkind ▸ stated,
    _, ?_, moved⟩
  rw [htrees]
  exact List.mem_map_of_mem (f := fun e : Nat × Tree =>
    e.2.mapNodes (Node.substitute (naming.renames.apply e.1) (remap e.1))) (List.getElem_mem _)

def clashNames : Lexicon := ⟨#["cell", "pad", "port"], by decide⟩

/-- Two units, each with a class of its own under the same name. The first states a stub for the
module of the second, whose port is of that class. -/
def clashDesign : Design where
  types := ⟨#[.instanceOf ⟨0⟩]⟩
  units :=
    [muxUnit
      [muxOp (.classDef ⟨⟨0⟩, [], []⟩) [] [],
        muxOp (.moduleStub ⟨⟨1⟩, [⟨⟨2⟩, .input, ⟨0⟩⟩]⟩) [] []]
      [⟨0⟩, ⟨1⟩],
    muxUnit
      [muxOp (.classDef ⟨⟨0⟩, [], []⟩) [] [],
        muxOp (.moduleDef .local ⟨⟨1⟩, [⟨⟨2⟩, .input, ⟨0⟩⟩]⟩) [] []]
      [⟨0⟩, ⟨1⟩]]

theorem clashDesign_wellFormed : clashDesign.WellFormed clashNames where
  forest := by decide
  typed := by decide
  closed := TyStore.Ordered.closed (by decide)
  acyclic := TyStore.Ordered.acyclic (by decide)
  named := by decide

theorem clashDesign_linked :
    (link .granted .standard clashDesign clashNames .empty).toOption.map (fun linked =>
      (linked.result.isOk, linked.design.types.types,
        linked.design.units.map fun u => u.forest.map (·.root.kind))) =
      some (true, #[.instanceOf ⟨0⟩, .instanceOf ⟨5⟩],
        [[.classDef ⟨⟨0⟩, [], []⟩, .classDef ⟨⟨5⟩, [], []⟩,
          .moduleDef .local ⟨⟨1⟩, [⟨⟨2⟩, .input, ⟨1⟩⟩]⟩]]) ∧
    (clashDesign.naming .standard clashNames).toOption.map (·.renames.apply 0 ⟨0⟩) = some ⟨0⟩ := by
  decide +kernel

/-- So the linked module shows a class that the unit of the stub never meant. -/
theorem interface_differs_clash :
    clashDesign.WellFormed clashNames ∧ clashDesign.UniqueNames ∧
    ∃ (linked : Linked) (summary : Summary) (naming : Naming) (merged : LinkUnit)
        (stub definition : Tree),
      link .granted .standard clashDesign clashNames .empty = .ok linked ∧
      linked.result = .ok summary ∧
      clashDesign.naming .standard clashNames = .ok naming ∧ linked.design.units = [merged] ∧
      stub ∈ (clashDesign.units[0]).forest ∧ stub.root.kind.isStub = true ∧
      stub.declares .modules ⟨1⟩ = true ∧
      definition ∈ merged.forest ∧ definition.declares .modules ⟨1⟩ = true ∧
      definition.root.kind.interface? linked.design.types.tree ≠
        (stub.root.kind.interface? clashDesign.types.tree).map
          (Interface.map (Except.map (TyTree.rename (naming.renames.apply 0)))) := by
  obtain ⟨outcome, names⟩ := clashDesign_linked
  obtain ⟨linked, hlinked, heq⟩ := Option.map_eq_some_iff.mp outcome
  obtain ⟨naming, hnaming, keeps⟩ := Option.map_eq_some_iff.mp names
  obtain ⟨hresult, heq⟩ := Prod.mk.inj heq
  obtain ⟨htypes, hunits⟩ := Prod.mk.inj heq
  obtain ⟨summary, success⟩ : ∃ summary, linked.result = .ok summary := by
    cases h : linked.result with
    | error failure => rw [h] at hresult; cases hresult
    | ok summary => exact ⟨summary, rfl⟩
  obtain ⟨merged, hmerged, htrees⟩ := List.map_eq_singleton_iff.mp hunits
  obtain ⟨definition, hdefinition, hkind⟩ : ∃ t ∈ merged.forest,
      t.root.kind = .moduleDef .local ⟨⟨1⟩, [⟨⟨2⟩, .input, ⟨1⟩⟩]⟩ := by
    refine List.mem_map.mp ?_
    rw [htrees]
    decide
  obtain ⟨stub, hstub, hkind'⟩ : ∃ t ∈ (clashDesign.units[0]).forest,
      t.root.kind = .moduleStub ⟨⟨1⟩, [⟨⟨2⟩, .input, ⟨0⟩⟩]⟩ := by decide
  have after : linked.design.types.tree ⟨1⟩ = .ok (.node (.instanceOf ⟨5⟩) []) := by
    have store : linked.design.types = ⟨#[.instanceOf ⟨0⟩, .instanceOf ⟨5⟩]⟩ := by
      rw [← htypes]
    rw [store]
    rfl
  have before : clashDesign.types.tree ⟨0⟩ = .ok (.node (.instanceOf ⟨0⟩) []) := rfl
  refine ⟨clashDesign_wellFormed, by decide, linked, summary, naming, merged, stub, definition,
    toOption_eq_some.mp hlinked, success, toOption_eq_some.mp hnaming, hmerged, hstub,
    by rw [hkind']; rfl, by rw [Tree.declares, hkind']; rfl, hdefinition,
    by rw [Tree.declares, hkind]; rfl, ?_⟩
  rw [hkind, hkind']
  simp [OpKind.interface?, Interface.map, after, before, Except.map, TyTree.rename_node,
    Former.rename, keeps]

end Linkage
