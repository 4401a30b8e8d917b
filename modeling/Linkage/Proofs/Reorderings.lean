import Linkage.Proofs.Docket
import Linkage.Proofs.Totality
import Mathlib.Logic.Equiv.Fin.Basic
/-!
The units of a design in another order. What declares a name is the same up to the positions of the
units, so a name that goes through in one order goes through in the other, and is told apart in
both or in neither.
-/
namespace Linkage

def Design.reordered (d : Design) (order : Equiv.Perm (Fin d.units.length)) : Design :=
  { d with units := List.ofFn fun unit => d.units.get (order.symm unit) }

/-- A design with the units of another, each of them where a permutation of all positions puts
it. -/
structure Design.Shuffled (place : Equiv.Perm Nat) (d d' : Design) : Prop where
  types : d'.types = d.types
  units : ∀ unit, d'.units[place unit]? = d.units[unit]?

/-- An order of the units is a permutation that leaves all other positions alone. -/
theorem Design.exists_shuffled (d : Design) (order : Equiv.Perm (Fin d.units.length)) :
    ∃ place : Equiv.Perm Nat, (∀ unit : Fin d.units.length, place unit = order unit) ∧
      Design.Shuffled place d (d.reordered order) := by
  have inside : ∀ unit : Fin d.units.length,
      order.extendDomain Fin.equivSubtype unit = order unit :=
    order.extendDomain_apply_image Fin.equivSubtype
  refine ⟨order.extendDomain Fin.equivSubtype, inside, rfl, fun unit => ?_⟩
  by_cases h : unit < d.units.length
  · have put := inside ⟨unit, h⟩
    simp only at put
    rw [put, reordered, List.getElem?_ofFn, dif_pos (order ⟨unit, h⟩).isLt]
    simp [h]
  · have outside := order.extendDomain_apply_not_subtype Fin.equivSubtype h
    rw [outside, List.getElem?_eq_none (by simp [reordered]; omega),
      List.getElem?_eq_none (by omega)]

theorem Settled.perm {kinds kinds' : List OpKind} {verdict : Bool} (h : Settled kinds verdict)
    (same : kinds.Perm kinds') : Settled kinds' verdict := by
  cases h with
  | apart defined several =>
    exact .apart (fun kind hkind => defined kind (same.mem_iff.mpr hkind))
      (same.length_eq ▸ several)
  | together definition only agrees =>
    have single := (same.filter (!·.isStub)).symm
    rw [only] at single
    exact .together definition single.eq_singleton
      fun stub hstub => agrees stub (same.mem_iff.mpr hstub)

theorem ExportedAlone.perm {kinds kinds' : List OpKind} (h : ExportedAlone kinds)
    (same : kinds.Perm kinds') : ExportedAlone kinds' := by
  intro kind hkind exported
  rw [← (same.filter _).length_eq]
  exact h kind (same.mem_iff.mpr hkind) exported

theorem Court.exportedAlone_of_judge {c : Court} {space : Space} {name : Name} {sites : List Site}
    {ops : List Op} {verdict : Bool}
    (hops : List.Forall₂ (fun site op => c.op site = .ok op) sites ops)
    (kinds : ∀ op ∈ ops, op.kind.declaration?.map (·.1) = some space)
    (h : c.judge space name sites = .ok verdict) : ExportedAlone (ops.map (·.kind)) := by
  cases space with
  | modules => exact exportedAlone_of_judgeModule hops h
  | classes =>
    intro kind hkind exported
    obtain ⟨op, hop, rfl⟩ := List.mem_map.mp hkind
    have isClass := kinds op hop
    cases hkind : op.kind <;> rw [hkind] at isClass exported <;> cases isClass <;> cases exported

theorem Phases.acceptable {options : LinkOptions} {d : Design} {lexicon : Lexicon}
    (p : Phases options d lexicon) (forest : ∀ u ∈ d.units, u.IsForest) {space : Space}
    {name : Name} (declared : d.declarers space name ≠ []) : d.Acceptable space name := by
  refine ⟨p.settled forest declared, ?_⟩
  obtain ⟨pss, hpss, hcs⟩ := p.exists_unfolding forest
  obtain ⟨judged, -, -⟩ := Court.nameAll_ok p.names
  obtain ⟨verdict, hverdict⟩ := judged space name
    (mt (Design.sites_eq_nil_iff hpss hcs).mp declared)
  obtain ⟨words, -, hjudge⟩ := hverdict
  have alone := Court.exportedAlone_of_judge (Design.heard_collected hcs d.types words space name)
    (Design.kinds_declarers pss space name) hjudge
  rwa [Design.kinds_heard hpss] at alone

namespace Design.Shuffled

variable {place : Equiv.Perm Nat} {d d' : Design} {lexicon : Lexicon}

theorem symm (h : Shuffled place d d') : Shuffled place.symm d' d :=
  ⟨h.types.symm, fun unit => by rw [← h.units, Equiv.apply_symm_apply]⟩

theorem mem_units (h : Shuffled place d d') {u : LinkUnit} (hu : u ∈ d'.units) : u ∈ d.units := by
  obtain ⟨unit, hunit⟩ := List.getElem?_of_mem hu
  rw [h.symm.units unit |>.symm] at hunit
  exact List.mem_of_getElem? hunit

theorem wellFormed (h : Shuffled place d d') (wf : d.WellFormed lexicon) :
    d'.WellFormed lexicon where
  forest u hu := wf.forest u (h.mem_units hu)
  typed u hu := by
    rw [h.types]
    exact wf.typed u (h.mem_units hu)
  closed := h.types ▸ wf.closed
  acyclic := h.types ▸ wf.acyclic
  named u hu := wf.named u (h.mem_units hu)

theorem uniqueNames (h : Shuffled place d d') (unique : d.UniqueNames) : d'.UniqueNames :=
  fun u hu => unique u (h.mem_units hu)

theorem zipIdx (h : Shuffled place d d') :
    d'.units.zipIdx.Perm (d.units.zipIdx.map fun e => (e.1, place e.2)) := by
  have positions : ∀ units : List LinkUnit, (units.zipIdx.map (·.2)).Nodup := fun units => by
    rw [List.zipIdx_map_snd]
    exact List.nodup_range'
  have placed : ((d.units.zipIdx.map fun e => (e.1, place e.2)).map (·.2)).Nodup := by
    have moved := (positions d.units).map place.injective
    rwa [List.map_map] at moved ⊢
  rw [List.perm_ext_iff_of_nodup (positions _).of_map placed.of_map]
  rintro ⟨u, unit⟩
  rw [List.mem_zipIdx_iff_getElem?, List.mem_map]
  constructor
  · intro hu
    refine ⟨(u, place.symm unit), List.mem_zipIdx_iff_getElem?.mpr ?_, by simp⟩
    rwa [h.symm.units]
  · rintro ⟨⟨v, other⟩, hv, heq⟩
    cases heq
    rw [h.units]
    exact List.mem_zipIdx_iff_getElem?.mp hv

theorem perm (h : Shuffled place d d') (f : LinkUnit → List Tree) :
    (d'.units.zipIdx.flatMap fun e => (f e.1).map (e.2, ·)).Perm
      ((d.units.zipIdx.flatMap fun e => (f e.1).map (e.2, ·)).map
        fun e => (place e.1, e.2)) := by
  have listed := h.zipIdx.flatMap_right fun e => (f e.1).map (e.2, ·)
  rw [List.flatMap_map] at listed
  rw [List.map_flatMap]
  simpa only [List.map_map, Function.comp_def] using listed

theorem declarers (h : Shuffled place d d') (space : Space) (name : Name) :
    (d'.declarers space name).Perm
      ((d.declarers space name).map fun e => (place e.1, e.2)) :=
  h.perm fun u => u.forest.filter (Tree.declares space name)

theorem definitions (h : Shuffled place d d') :
    d'.definitions.Perm (d.definitions.map fun e => (place e.1, e.2)) := by
  have listed := h.perm fun u => (u.forest.filter (·.root.kind.isDefinition)).map Tree.withoutStubs
  simp only [List.map_map] at listed
  exact listed

theorem kinds (h : Shuffled place d d') (space : Space) (name : Name) :
    ((d.declarers space name).map (·.2.root.kind)).Perm
      ((d'.declarers space name).map (·.2.root.kind)) := by
  have same := (h.declarers space name).map fun e => e.2.root.kind
  rw [List.map_map] at same
  exact same.symm

theorem acceptable (h : Shuffled place d d') {space : Space} {name : Name}
    (fine : d.Acceptable space name) : d'.Acceptable space name := by
  obtain ⟨⟨verdict, settled⟩, alone⟩ := fine
  exact ⟨⟨verdict, settled.perm (h.kinds space name)⟩, alone.perm (h.kinds space name)⟩

theorem apart_eq (h : Shuffled place d d') (space : Space) (name : Name) :
    d'.apart space name = d.apart space name := by
  have stubs := (h.kinds space name).all_eq (f := fun kind => !kind.isStub)
  have count := (h.kinds space name).length_eq
  rw [List.all_map, List.all_map] at stubs
  rw [List.length_map, List.length_map] at count
  rw [Design.apart, Design.apart, count]
  exact congrArg (· && _) stubs.symm

theorem covered (h : Shuffled place d d') (covered : d.Covered) : d'.Covered := by
  intro u hu
  obtain ⟨unit, hunit⟩ := List.mem_iff_getElem?.mp hu
  have same := h.units (place.symm unit)
  rw [Equiv.apply_symm_apply, hunit] at same
  exact covered u (List.mem_of_getElem? same.symm)

theorem spoken (h : Shuffled place d d') (spoken : d.Spoken lexicon) : d'.Spoken lexicon where
  tags u hu := spoken.tags u (h.mem_units hu)
  members u hu := spoken.members u (h.mem_units hu)
  classes := h.types ▸ spoken.classes

theorem exists_phases (h : Shuffled place d d') (wf : d.WellFormed lexicon) (covered : d.Covered)
    (spoken : d.Spoken lexicon) {options : LinkOptions} (p : Phases options d lexicon)
    (options' : LinkOptions) :
    Nonempty (Phases options' d' lexicon) := by
  have wf' := h.wellFormed wf
  have fine : ∀ space name, d'.declarers space name ≠ [] → d'.Acceptable space name := by
    intro space name declared
    refine h.acceptable (p.acceptable wf.forest fun none_ => declared ?_)
    have same := h.declarers space name
    rwa [none_, List.map_nil, List.perm_nil] at same
  have spoken' := h.spoken spoken
  obtain ⟨naming, named⟩ := exists_naming wf'.forest (h.covered covered) wf'.named spoken'.tags
    (fun u hu t ht _ => spoken'.members u hu t ht) fine options'
  obtain ⟨p', -⟩ := wf'.exists_phases (h.covered covered) named
  exact ⟨p'⟩

end Design.Shuffled

end Linkage
