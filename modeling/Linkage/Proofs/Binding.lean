import Linkage.Proofs.Mentions
import Linkage.Proofs.Refinement
import Linkage.Proofs.Resolution
/-!
Linking preserves binding. Renaming sets definitions of one name apart and brings none together,
so what a unit refers to is, after the link, what it referred to before: its own definition, or
the only one there is.
-/
namespace Linkage

theorem Tree.declares_mapNodes {space : Space} {name : Name} {s : Name → Name} {f : TyId → TyId}
    {t : Tree} : (t.mapNodes (Node.substitute s f)).declares space name = true ↔
      ∃ old, t.declares space old = true ∧ s old = name := by
  have kind : (t.mapNodes (Node.substitute s f)).root.kind.declaration? =
      t.root.kind.declaration?.map fun d => (d.1, s d.2) := by
    rw [root_mapNodes, Node.declaration?_substitute]
  simp only [declares, decide_eq_true_eq, kind, Option.map_eq_some_iff, Prod.exists, Prod.mk.injEq]
  constructor
  · rintro ⟨found, old, hdeclares, rfl, rfl⟩
    exact ⟨old, hdeclares, rfl⟩
  · rintro ⟨old, hdeclares, rfl⟩
    exact ⟨space, old, hdeclares, rfl, rfl⟩

theorem Renaming.apply_eq_of_none {r : Renaming} {unit : Nat} {name : Name}
    (h : r.get? unit name = none) : r.apply unit name = name := by
  rw [apply, h, Option.getD_none]

theorem Renaming.apply_eq_of_some {r : Renaming} {unit : Nat} {name new : Name}
    (h : r.get? unit name = some new) : r.apply unit name = new := by
  rw [apply, h, Option.getD_some]

namespace Phases

variable {options : LinkOptions} {d : Design} {lexicon : Lexicon} {space space' : Space}
  {name name' : Name} {unit unit' : Nat} {t t' : Tree}

theorem fresh_of_declarer (p : Phases options d lexicon) (wf : d.WellFormed lexicon) {new : Name}
    (h : p.naming.renames.get? unit name = some new) (ht : (unit', t') ∈ d.declarers space name') :
    new ≠ name' := by
  rintro rfl
  obtain ⟨u, hu, hmem, hdeclares⟩ := Design.mem_declarers.mp ht
  exact p.fresh wf.forest h (List.mem_of_getElem? hu) hmem (Tree.declared?_of_declares hdeclares)

/-- Two declarations end up under one name only if they had it before, and either they stand in one
unit or neither is renamed. -/
theorem apply_eq_iff (p : Phases options d lexicon) (wf : d.WellFormed lexicon)
    (ht : (unit, t) ∈ d.declarers space name) (ht' : (unit', t') ∈ d.declarers space' name') :
    p.naming.renames.apply unit name = p.naming.renames.apply unit' name' ↔
      name = name' ∧ (unit = unit' ∨ p.naming.renames.get? unit name = none ∧
        p.naming.renames.get? unit' name' = none) := by
  cases h : p.naming.renames.get? unit name with
  | none =>
    rw [Renaming.apply_eq_of_none h]
    cases h' : p.naming.renames.get? unit' name' with
    | none =>
      rw [Renaming.apply_eq_of_none h']
      simp
    | some new =>
      rw [Renaming.apply_eq_of_some h']
      constructor
      · intro same
        exact absurd same.symm (p.fresh_of_declarer wf h' ht)
      · rintro ⟨rfl, rfl | ⟨-, other⟩⟩
        · rw [h] at h'
          cases h'
        · cases other
  | some new =>
    rw [Renaming.apply_eq_of_some h]
    cases h' : p.naming.renames.get? unit' name' with
    | none =>
      rw [Renaming.apply_eq_of_none h']
      constructor
      · intro same
        exact absurd same (p.fresh_of_declarer wf h ht')
      · rintro ⟨rfl, rfl | ⟨other, -⟩⟩
        · rw [h] at h'
          cases h'
        · cases other
    | some new' =>
      rw [Renaming.apply_eq_of_some h']
      constructor
      · rintro rfl
        obtain ⟨rfl, rfl⟩ := p.apart h h'
        exact ⟨rfl, .inl rfl⟩
      · rintro ⟨rfl, rfl | ⟨other, -⟩⟩
        · exact Option.some.inj (h.symm.trans h')
        · cases other

theorem renamed_of_some (p : Phases options d lexicon) (forest : ∀ u ∈ d.units, u.IsForest)
    (unique : d.UniqueNames) (ht : (unit, t) ∈ d.declarers space name) :
    (p.naming.renames.get? unit name).isSome = true ↔
      unit ∈ d.renamed options.policy space name := by
  rw [p.isSome_get?_iff forest]
  constructor
  · rintro ⟨space', hmem⟩
    have declared : unit ∈ (d.declarers space' name).map (·.1) := Design.renamed_subset _ _ hmem
    have same := unique.space_eq (List.mem_map.mpr ⟨_, ht, rfl⟩) declared
    exact same ▸ hmem
  · intro hmem
    exact ⟨space, hmem⟩

theorem mem_definitions_of_declares (hmem : (unit, t) ∈ d.definitions)
    (hdeclares : t.declares space name = true) :
    ∃ t', (unit, t') ∈ d.declarers space name ∧ t'.root.kind.isStub = false ∧
      t'.withoutStubs = t := by
  have found : (unit, t) ∈ d.definitions.filter (·.2.declares space name) :=
    List.mem_filter.mpr ⟨hmem, hdeclares⟩
  rw [Design.filter_definitions] at found
  obtain ⟨⟨_, t'⟩, ht', heq⟩ := List.mem_map.mp found
  obtain ⟨rfl, rfl⟩ := Prod.mk.inj heq
  obtain ⟨hmem', defined⟩ := List.mem_filter.mp ht'
  exact ⟨t', hmem', by simpa using defined, rfl⟩

theorem declares_moved (p : Phases options d lexicon) {e : Nat × Tree} :
    (p.moved e).declares space name = true ↔
      ∃ old, e.2.declares space old = true ∧ p.naming.renames.apply e.1 old = name :=
  Tree.declares_mapNodes

theorem filter_moved (p : Phases options d lexicon) (wf : d.WellFormed lexicon)
    (unique : d.UniqueNames) (ht : (unit, t) ∈ d.declarers space name)
    (hdefined : (unit', t') ∈ d.declarers space name) (defined : t'.root.kind.isStub = false)
    (only : ∀ e ∈ d.declarers space name, e.2.root.kind.isStub = false →
      (p.naming.renames.apply e.1 name = p.naming.renames.apply unit name ↔ e.1 = unit')) :
    d.definitions.filter
        (fun e => (p.moved e).declares space (p.naming.renames.apply unit name)) =
      [(unit', t'.withoutStubs)] := by
  have same : d.definitions.filter
        (fun e => (p.moved e).declares space (p.naming.renames.apply unit name)) =
      d.definitions.filter (fun e => e.1 = unit' && e.2.declares space name) := by
    refine List.filter_congr fun e he => ?_
    rw [Bool.eq_iff_iff, declares_moved, Bool.and_eq_true, decide_eq_true_eq]
    constructor
    · rintro ⟨old, hdeclares, happly⟩
      obtain ⟨te, hte, hte', htree⟩ := mem_definitions_of_declares he hdeclares
      obtain ⟨rfl, -⟩ := (p.apply_eq_iff wf hte ht).mp happly
      exact ⟨(only (e.1, te) hte hte').mp happly, hdeclares⟩
    · rintro ⟨hunit, hdeclares⟩
      obtain ⟨te, hte, hte', htree⟩ := mem_definitions_of_declares he hdeclares
      exact ⟨name, hdeclares, (only (e.1, te) hte hte').mpr hunit⟩
  have nodup : ((d.definitions.filter (·.2.declares space name)).map (·.1)).Nodup := by
    rw [Design.filter_definitions, List.map_map]
    exact (unique.nodup space name).sublist (List.Sublist.map _ List.filter_sublist)
  have found : (unit', t'.withoutStubs) ∈ d.definitions.filter (·.2.declares space name) := by
    rw [Design.filter_definitions]
    refine List.mem_map.mpr ⟨(unit', t'), List.mem_filter.mpr ⟨hdefined, ?_⟩, rfl⟩
    simp [defined]
  rw [same, ← List.filter_filter]
  exact filter_fst_eq nodup found

/-- The policies leave at most one declaration of a name as it is. -/
theorem eq_of_not_choose {α : Type} (policy : RenamePolicy) {xs : List (Nat × α)} {i j : Nat}
    (hi : i ∈ xs.map (·.1)) (hj : j ∈ xs.map (·.1)) (hi' : i ∉ (policy.choose xs).map (·.1))
    (hj' : j ∉ (policy.choose xs).map (·.1)) : i = j := by
  cases policy with
  | renameAll => exact absurd hi hi'
  | keepFirst =>
    cases xs with
    | nil => cases hi
    | cons x rest =>
      rcases List.mem_cons.mp hi with rfl | hi
      · rcases List.mem_cons.mp hj with rfl | hj
        · rfl
        · exact absurd hj hj'
      · exact absurd hi hi'

theorem not_chosen (p : Phases options d lexicon) (forest : ∀ u ∈ d.units, u.IsForest)
    (unique : d.UniqueNames) (told : d.apart space name = true)
    (ht : (unit, t) ∈ d.declarers space name)
    (stays : p.naming.renames.get? unit name = none) :
    unit ∉ (options.policy.choose (d.declarers space name)).map (·.1) := by
  intro hmem
  have renamed := (p.renamed_of_some forest unique ht).mpr (by
    rw [Design.renamed, if_pos told]
    exact hmem)
  rw [stays] at renamed
  cases renamed

theorem filter_moved_of_apart (p : Phases options d lexicon) (wf : d.WellFormed lexicon)
    (unique : d.UniqueNames) (told : d.apart space name = true)
    (ht : (unit, t) ∈ d.declarers space name) (defined : t.root.kind.isStub = false) :
    d.definitions.filter
        (fun e => (p.moved e).declares space (p.naming.renames.apply unit name)) =
      [(unit, t.withoutStubs)] := by
  refine p.filter_moved wf unique ht ht defined fun e he _ => ?_
  rw [p.apply_eq_iff wf he ht]
  constructor
  · rintro ⟨-, same | ⟨stays, stays'⟩⟩
    · exact same
    · exact eq_of_not_choose options.policy (List.mem_map_of_mem he) (List.mem_map_of_mem ht)
        (p.not_chosen wf.forest unique told he stays)
        (p.not_chosen wf.forest unique told ht stays')
  · intro same
    exact ⟨rfl, .inl same⟩

theorem get?_eq_none_of_together (p : Phases options d lexicon)
    (forest : ∀ u ∈ d.units, u.IsForest) (unique : d.UniqueNames)
    (told : d.apart space name = false) (ht : (unit, t) ∈ d.declarers space name) :
    p.naming.renames.get? unit name = none := by
  by_contra renamed
  have hmem := (p.renamed_of_some forest unique ht).mp (Option.isSome_iff_ne_none.mpr renamed)
  rw [Design.renamed, told] at hmem
  cases hmem

theorem filter_moved_of_together (p : Phases options d lexicon) (wf : d.WellFormed lexicon)
    (unique : d.UniqueNames) (told : d.apart space name = false)
    (ht : (unit, t) ∈ d.declarers space name) {target : Nat × Tree}
    (only : (d.declarers space name).filter (!·.2.root.kind.isStub) = [target]) :
    d.definitions.filter
        (fun e => (p.moved e).declares space (p.naming.renames.apply unit name)) =
      [(target.1, target.2.withoutStubs)] := by
  have hmem : target ∈ (d.declarers space name).filter (!·.2.root.kind.isStub) := by
    rw [only]
    exact List.mem_cons_self
  obtain ⟨hdeclarer, hdefined⟩ := List.mem_filter.mp hmem
  refine p.filter_moved wf unique ht hdeclarer (by simpa using hdefined) fun e he defined => ?_
  have same : e = target := by
    have found : e ∈ (d.declarers space name).filter (!·.2.root.kind.isStub) :=
      List.mem_filter.mpr ⟨he, by simp [defined]⟩
    rw [only] at found
    exact List.mem_singleton.mp found
  have stays := p.get?_eq_none_of_together wf.forest unique told he
  have stays' := p.get?_eq_none_of_together wf.forest unique told ht
  rw [p.apply_eq_iff wf he ht]
  exact ⟨fun _ => congrArg Prod.fst same, fun _ => ⟨rfl, .inr ⟨stays, stays'⟩⟩⟩

/-- What a name of a unit stands for after the link: one definition, which is the unit's own or,
if the unit has only a stub, the only one of that name. -/
theorem exists_target (p : Phases options d lexicon) (wf : d.WellFormed lexicon)
    (unique : d.UniqueNames) (ht : (unit, t) ∈ d.declarers space name) :
    ∃ target : Nat × Tree,
      d.definitions.filter
        (fun e => (p.moved e).declares space (p.naming.renames.apply unit name)) = [target] ∧
      target.2.declares space name = true ∧
      (t.root.kind.isStub = false → target.1 = unit) ∧
      (t.root.kind.isStub = true → d.definitions.filter (·.2.declares space name) = [target]) := by
  have declared : d.declarers space name ≠ [] := List.ne_nil_of_mem ht
  obtain ⟨verdict, settled⟩ := p.settled wf.forest declared
  have told := d.apart_eq_of_settled settled declared
  have declares_of : ∀ e ∈ d.declarers space name, e.2.withoutStubs.declares space name = true := by
    intro e he
    obtain ⟨u, -, -, hdeclares⟩ := Design.mem_declarers.mp he
    rwa [Tree.declares_withoutStubs]
  cases verdict with
  | true =>
    obtain ⟨defined, several⟩ := settled
    have hdefined : t.root.kind.isStub = false := defined _ (List.mem_map_of_mem ht)
    refine ⟨(unit, t.withoutStubs), p.filter_moved_of_apart wf unique told ht hdefined,
      declares_of _ ht, fun _ => rfl, fun stub => ?_⟩
    rw [hdefined] at stub
    cases stub
  | false =>
    obtain ⟨target, hmem, only, -⟩ := settled.exists_definition
    refine ⟨(target.1, target.2.withoutStubs), p.filter_moved_of_together wf unique told ht only,
      declares_of _ hmem, fun defined => ?_, fun _ => ?_⟩
    · have own : (unit, t) ∈ (d.declarers space name).filter (!·.2.root.kind.isStub) :=
        List.mem_filter.mpr ⟨ht, by simp [defined]⟩
      rw [only] at own
      exact congrArg Prod.fst (List.mem_singleton.mp own).symm
    · rw [Design.filter_definitions, only]
      rfl

/-- An operation that survives refers after the link, place by place, to what the names it referred
to became. -/
theorem mentions_eq (p : Phases options d lexicon) (wf : d.WellFormed lexicon)
    (hmem : (unit, t) ∈ d.definitions) {n : Node} (hn : n ∈ t.nodes) :
    ∃ names, n.mentions d.types = .ok names ∧
      (n.substitute (p.naming.renames.apply unit) (p.remap unit)).mentions p.rewritten.types =
        .ok (names.map (p.naming.renames.apply unit)) := by
  obtain ⟨u, hu, t', ht', -, rfl⟩ := Design.mem_definitions.mp hmem
  have inside : ∀ id ∈ n.types, id.index < d.types.size :=
    wf.typed u (List.mem_of_getElem? hu) t' ht' n (t'.nodes_withoutStubs_sublist.subset hn)
  have hunit : unit < d.units.length := (List.getElem?_eq_some_iff.mp hu).1
  obtain ⟨ts, hts⟩ := exists_forall₂ fun id hid =>
    TyStore.exists_denotes wf.closed wf.acyclic (inside id hid)
  refine Node.mentions_substitute hts ?_
  rw [List.forall₂_map_left_iff, List.forall₂_map_right_iff]
  exact hts.imp fun _ _ => p.denotes_remap hunit

end Phases

namespace LinkUnit

def Defines (u : LinkUnit) (space : Space) (name : Name) : Prop :=
  ∃ t ∈ u.forest, t.declares space name = true ∧ t.root.kind.isStub = false

def Imports (u : LinkUnit) (space : Space) (name : Name) : Prop :=
  ∃ t ∈ u.forest, t.declares space name = true ∧ t.root.kind.isStub = true

instance (u : LinkUnit) (space : Space) (name : Name) : Decidable (u.Defines space name) :=
  inferInstanceAs (Decidable (∃ t ∈ u.forest, t.declares space name = true ∧
    t.root.kind.isStub = false))

instance (u : LinkUnit) (space : Space) (name : Name) : Decidable (u.Imports space name) :=
  inferInstanceAs (Decidable (∃ t ∈ u.forest, t.declares space name = true ∧
    t.root.kind.isStub = true))

end LinkUnit

/-- A link preserves binding. A reference of a surviving operation to a name that its unit declares
carries, in the linked unit, a name that exactly one definition of that kind has there. This is
the definition that the unit itself has of the old name, or if it has a stub, the only one of the
old name that there is. -/
theorem link_preserves_binding {pool : WorkerPool} {options : LinkOptions} {d : Design}
    {lexicon : Lexicon} {log : Log} {linked : Linked} {summary : Summary}
    (wf : d.WellFormed lexicon) (unique : d.UniqueNames)
    (h : link pool options d lexicon log = .ok linked) (success : linked.result = .ok summary) :
    ∃ (merged : LinkUnit) (rename : Nat → Name → Name) (remap : Nat → TyId → TyId),
      linked.design.units = [merged] ∧
      (merged.forest = d.definitions.map fun e =>
        e.2.mapNodes (Node.substitute (rename e.1) (remap e.1))) ∧
      ∀ unit u, d.units[unit]? = some u → ∀ t, (unit, t) ∈ d.definitions → ∀ n ∈ t.nodes,
        ∃ names, n.mentions d.types = .ok names ∧
          (n.substitute (rename unit) (remap unit)).mentions linked.design.types =
            .ok (names.map (rename unit)) ∧
          ∀ name ∈ names, ∀ space, u.Defines space name ∨ u.Imports space name →
            ∃ target : Nat × Tree,
              (d.definitions.filter fun e => (e.2.mapNodes (Node.substitute (rename e.1)
                (remap e.1))).declares space (rename unit name)) = [target] ∧
              target.2.declares space name = true ∧
              (u.Defines space name → target.1 = unit) ∧
              (u.Imports space name →
                d.definitions.filter (·.2.declares space name) = [target]) := by
  obtain ⟨p, hdesign, -, -, -⟩ := link_phases h success
  obtain ⟨-, htrees⟩ := joined_forest p.rewritten.units
  refine ⟨joined p.rewritten.units, p.naming.renames.apply, p.remap, by rw [hdesign],
    htrees.trans (p.forest_eq wf.forest), fun unit u hu t ht n hn => ?_⟩
  obtain ⟨names, hnames, hnames'⟩ := p.mentions_eq wf ht hn
  refine ⟨names, hnames, by rw [hdesign]; exact hnames', fun name _ space declares => ?_⟩
  have hmem : u ∈ d.units := List.mem_of_getElem? hu
  obtain ⟨t₀, ht₀, hdeclares⟩ : ∃ t₀ ∈ u.forest, t₀.declares space name = true := by
    rcases declares with ⟨t₀, ht₀, hdeclares, -⟩ | ⟨t₀, ht₀, hdeclares, -⟩
    · exact ⟨t₀, ht₀, hdeclares⟩
    · exact ⟨t₀, ht₀, hdeclares⟩
  obtain ⟨target, only, named, own, shared⟩ := p.exists_target wf unique
    (Design.mem_declarers.mpr ⟨u, hu, ht₀, hdeclares⟩)
  refine ⟨target, only, named, ?_, ?_⟩
  · rintro ⟨t₁, ht₁, hdeclares', defined⟩
    obtain rfl := unique.eq hmem ht₀ ht₁ hdeclares hdeclares'
    exact own defined
  · rintro ⟨t₁, ht₁, hdeclares', stub⟩
    obtain rfl := unique.eq hmem ht₀ ht₁ hdeclares hdeclares'
    exact shared stub

/-- In the second unit the name `mux2` still stands for that unit's own module, and in the first
the name `adder` for the module that only the second one has. -/
theorem link_preserves_binding_mux :
    ∃ linked summary, link .granted .standard muxDesign muxNames .empty = .ok linked ∧
      linked.result = .ok summary ∧ muxDesign.UniqueNames ∧
      ∃ (rename : Nat → Name → Name) (remap : Nat → TyId → TyId),
        (∃ target, (muxDesign.definitions.filter fun e => (e.2.mapNodes (Node.substitute
            (rename e.1) (remap e.1))).declares .modules (rename 1 ⟨0⟩)) = [target] ∧
          target.1 = 1) ∧
        ∃ target, (muxDesign.definitions.filter fun e => (e.2.mapNodes (Node.substitute
            (rename e.1) (remap e.1))).declares .modules (rename 0 ⟨1⟩)) = [target] ∧
          target.1 = 1 := by
  obtain ⟨linked, summary, h, success⟩ := Design.links_iff.mp muxDesign_links
  have unique : muxDesign.UniqueNames := by decide
  obtain ⟨merged, rename, remap, -, -, binds⟩ :=
    link_preserves_binding muxDesign_wellFormed unique h success
  -- the two modules of the name, in the order of the units
  have first : (0, (muxDesign.definitions[1]).2) ∈ muxDesign.definitions :=
    List.mem_of_getElem? (i := 1) rfl
  have second : (1, (muxDesign.definitions[3]).2) ∈ muxDesign.definitions :=
    List.mem_of_getElem? (i := 3) rfl
  refine ⟨linked, summary, h, success, unique, rename, remap, ?_, ?_⟩
  · obtain ⟨names, hnames, -, each⟩ := binds 1 _ rfl _ second _ (Tree.root_mem_nodes _)
    obtain rfl : [⟨2⟩, ⟨0⟩, ⟨1⟩] = names := Except.ok.inj hnames
    obtain ⟨target, only, -, own, -⟩ := each ⟨0⟩ (by decide) .modules (.inl (by decide))
    exact ⟨target, only, own (by decide)⟩
  · obtain ⟨names, hnames, -, each⟩ := binds 0 _ rfl _ first _ (Tree.root_mem_nodes _)
    obtain rfl : [⟨2⟩, ⟨1⟩] = names := Except.ok.inj hnames
    obtain ⟨target, only, -, -, shared⟩ := each ⟨1⟩ (by decide) .modules (.inr (by decide))
    have there : muxDesign.definitions[4] = target := List.singleton_inj.mp (shared (by decide))
    exact ⟨target, only, there ▸ rfl⟩

end Linkage
