import Linkage.Proofs.Relinking
import Linkage.Proofs.Totality
/-!
What a link does not go by. Two designs with the same types whose units have the same tags and
declare the same trees link alike, to the same unit slot for slot, however the units store their
operations and whatever else they contain.
-/
namespace Linkage

def LinkUnit.declarations (u : LinkUnit) : List Tree :=
  u.forest.filter (·.root.kind.declaration?.isSome)

/-- Two designs that differ in storage, and in what declares nothing. -/
structure Design.Alike (d d' : Design) : Prop where
  types : d.types = d'.types
  units : List.Forall₂ (fun u u' => u.tag = u'.tag ∧ u.declarations = u'.declarations)
    d.units d'.units

def Summary.withoutDebris (s : Summary) : Summary := { s with debrisErased := 0 }

/-- Two links that ended alike, except that one may have had more to clear away. -/
structure Linked.Alike (l l' : Linked) : Prop where
  result : l.result.map Summary.withoutDebris = l'.result.map Summary.withoutDebris
  types : l.design.types = l'.design.types
  units : ∀ summary, l.result = .ok summary → l.design.units = l'.design.units
  lexicon : l.lexicon = l'.lexicon
  log : l.log = l'.log

def EndAlike : Checked Linked → Checked Linked → Prop
  | .ok linked, .ok linked' => linked.Alike linked'
  | .error fault, .error fault' => fault = fault'
  | _, _ => False

theorem assignTags_congr (stem : String) {units units' : List LinkUnit}
    (tags : units.map (·.tag) = units'.map (·.tag)) (count : Nat) (lexicon : Lexicon) :
    (assignTags stem count lexicon units).1.map (·.tag) =
        (assignTags stem count lexicon units').1.map (·.tag) ∧
      (assignTags stem count lexicon units).2 = (assignTags stem count lexicon units').2 := by
  induction units generalizing units' count lexicon with
  | nil =>
    obtain rfl : units' = [] := List.map_eq_nil_iff.mp tags.symm
    exact ⟨rfl, rfl⟩
  | cons u rest ih =>
    obtain ⟨u', rest', rfl, head, others⟩ := List.map_eq_cons_iff.mp tags.symm
    have head : u'.tag = u.tag := head
    cases htag : u.tag with
    | some tag =>
      obtain ⟨left, right⟩ := ih others.symm count lexicon
      simp only [assignTags, head, htag, List.map_cons, left, right, and_self]
    | none =>
      obtain ⟨left, right⟩ := ih others.symm (count + 1)
        (lexicon.intern (NamePool.numbered stem count)).2
      simp only [assignTags, head, htag, List.map_cons, left, right, and_self]

theorem tags_of_collect {units : List LinkUnit} {collected : List Collected}
    (h : units.mapM LinkUnit.collect = .ok collected) :
    (collected.map (·.unit)).map (·.tag) = units.map (·.tag) := by
  rw [← List.forall₂_eq_eq_eq, List.forall₂_map_left_iff, List.forall₂_map_left_iff,
    List.forall₂_map_right_iff]
  exact (mapM_eq_ok.mp h).flip.imp fun _ _ => LinkUnit.tag_collect

theorem tagText_congr {units units' : List LinkUnit}
    (tags : units.map (·.tag) = units'.map (·.tag)) (lexicon : Lexicon) (unit : Nat) :
    tagText units lexicon unit = tagText units' lexicon unit := by
  have same : units[unit]?.map (·.tag) = units'[unit]?.map (·.tag) := by
    rw [← List.getElem?_map, tags, List.getElem?_map]
  unfold tagText
  cases hu : units[unit]? with
  | none =>
    rw [hu] at same
    rw [Option.map_eq_none_iff.mp same.symm]
  | some u =>
    rw [hu] at same
    obtain ⟨u', hu', htag⟩ := Option.map_eq_some_iff.mp same.symm
    simp only [hu', htag]

namespace Court

variable {c c' : Court} {policy : RenamePolicy} {space : Space} {name : Name}

theorem nameOne_congr {sites sites' : List Site} {naming : Naming}
    (judged : (c.after naming).judge space name sites = (c'.after naming).judge space name sites')
    (units : sites.map (·.unit) = sites'.map (·.unit))
    (tags : ∀ lexicon unit, tagText c.units lexicon unit = tagText c'.units lexicon unit) :
    c.nameOne policy space naming (name, sites) =
      c'.nameOne policy space naming (name, sites') := by
  have chosen : (policy.select sites).map (·.unit) = (policy.select sites').map (·.unit) := by
    rw [RenamePolicy.select_eq, RenamePolicy.select_eq, ← RenamePolicy.choose_map, units,
      RenamePolicy.choose_map]
  cases space with
  | classes =>
    have run := congrArg (List.foldlM (fun (naming : Naming) unit => do
      let tag ← tagText c'.units naming.lexicon unit
      Linking.ofChecked (naming.freshen name unit (some tag))) naming) chosen
    rw [List.foldlM_map, List.foldlM_map] at run
    have verdict : (c.after naming).judgeClass name sites =
        (c'.after naming).judgeClass name sites' := judged
    simp only [nameOne, nameClass, verdict, tags, run]
  | modules =>
    have run := congrArg (List.foldlM (fun (naming : Naming) unit =>
      Linking.ofChecked (naming.freshen name unit none)) naming) chosen
    rw [List.foldlM_map, List.foldlM_map] at run
    have verdict : (c.after naming).judgeModule name sites =
        (c'.after naming).judgeModule name sites' := judged
    simp only [nameOne, nameModule, verdict, run]

theorem nameAll_congr {declared declared' : List Declared} (lexicon : c.lexicon = c'.lexicon)
    (names : Catalogue.names declared = Catalogue.names declared')
    (order : declared.flatMap Catalogue.roll = declared'.flatMap Catalogue.roll)
    (each : ∀ space naming name,
      c.nameOne policy space naming (name, Catalogue.sites declared space name) =
        c'.nameOne policy space naming (name, Catalogue.sites declared' space name)) :
    c.nameAll policy declared = c'.nameAll policy declared' := by
  simp only [nameAll_eq, names, order, lexicon, each]

end Court

theorem LinkUnit.filter_declarations (u : LinkUnit) {p : Tree → Bool}
    (declares : ∀ t, p t = true → t.root.kind.declaration?.isSome = true) :
    u.declarations.filter p = u.forest.filter p := by
  rw [declarations, List.filter_filter]
  refine List.filter_congr fun t _ => ?_
  cases hp : p t with
  | false => rfl
  | true => rw [declares t hp, Bool.and_self]

theorem LinkUnit.filterMap_declaredIn (u : LinkUnit) (space : Space) :
    u.declarations.filterMap (·.root.kind.declaredIn space) =
      u.forest.filterMap (·.root.kind.declaredIn space) := by
  rw [declarations, List.filterMap_filter]
  refine List.filterMap_congr fun t _ => ?_
  unfold OpKind.declaredIn
  cases t.root.kind.declaration? <;> rfl

namespace Design.Alike

variable {d d' : Design} {space : Space} {name : Name} {pss pss' : List (List Placed)}
  {collected collected' : List Collected}

theorem tags_eq (h : d.Alike d') : d.units.map (·.tag) = d'.units.map (·.tag) := by
  rw [← List.forall₂_eq_eq_eq, List.forall₂_map_left_iff, List.forall₂_map_right_iff]
  exact h.units.imp fun _ _ same => same.1

theorem declarers_eq (h : d.Alike d') (space : Space) (name : Name) :
    d.declarers space name = d'.declarers space name := by
  have declares : ∀ t : Tree, t.declares space name = true →
      t.root.kind.declaration?.isSome = true := fun t ht => by rw [Tree.declares_iff.mp ht]; rfl
  refine flatMap_zipIdx_congr h.units (fun u u' unit ⟨_, same⟩ => ?_) 0
  simp only [← LinkUnit.filter_declarations _ declares, same]

theorem definitions_eq (h : d.Alike d') : d.definitions = d'.definitions := by
  have declares : ∀ t : Tree, t.root.kind.isDefinition = true →
      t.root.kind.declaration?.isSome = true := fun t ht => by
    rw [OpKind.isDefinition_eq, Bool.and_eq_true] at ht
    exact ht.1
  refine flatMap_zipIdx_congr h.units (fun u u' unit ⟨_, same⟩ => ?_) 0
  simp only [← LinkUnit.filter_declarations _ declares, same]

theorem entered_eq (h : d.Alike d') (hpss : List.Forall₂ LinkUnit.Unfolds d.units pss)
    (hpss' : List.Forall₂ LinkUnit.Unfolds d'.units pss')
    (hcs : List.Forall₂ Collected.Of pss collected)
    (hcs' : List.Forall₂ Collected.Of pss' collected') {i : Nat} {declared declared' : Declared}
    (hd : (collected.map (·.declared))[i]? = some declared)
    (hd' : (collected'.map (·.declared))[i]? = some declared') (space : Space) :
    (declared.of space).map (·.name) = (declared'.of space).map (·.name) := by
  rw [List.getElem?_map, Option.map_eq_some_iff] at hd hd'
  obtain ⟨c, hc, rfl⟩ := hd
  obtain ⟨c', hc', rfl⟩ := hd'
  obtain ⟨ps, hps, of⟩ := forall₂_getElem? hcs.flip hc
  obtain ⟨ps', hps', of'⟩ := forall₂_getElem? hcs'.flip hc'
  obtain ⟨u, hu, unfolds⟩ := forall₂_getElem? hpss.flip hps
  obtain ⟨u', hu', unfolds'⟩ := forall₂_getElem? hpss'.flip hps'
  obtain ⟨u'', hu'', -, same⟩ := forall₂_getElem? h.units hu
  obtain rfl : u' = u'' := Option.some.inj (hu'.symm.trans hu'')
  rw [of.names_eq unfolds, of'.names_eq unfolds', ← LinkUnit.filterMap_declaredIn, same,
    LinkUnit.filterMap_declaredIn]

theorem units_of_sites (h : d.Alike d') (hpss : List.Forall₂ LinkUnit.Unfolds d.units pss)
    (hpss' : List.Forall₂ LinkUnit.Unfolds d'.units pss')
    (hcs : List.Forall₂ Collected.Of pss collected)
    (hcs' : List.Forall₂ Collected.Of pss' collected') (space : Space) (name : Name) :
    (Catalogue.sites (collected.map (·.declared)) space name).map (·.unit) =
      (Catalogue.sites (collected'.map (·.declared)) space name).map (·.unit) := by
  have declarers := h.declarers_eq space name
  rw [← Placed.map_tree_declarers hpss, ← Placed.map_tree_declarers hpss'] at declarers
  have units := congrArg (List.map (·.1)) declarers
  rw [List.map_map, List.map_map] at units
  rw [← Placed.map_site_declarers hcs, ← Placed.map_site_declarers hcs', List.map_map, List.map_map]
  exact units

/-- The same renaming is decided on, or the same name is turned down. -/
theorem naming_eq (h : d.Alike d') (forest : ∀ u ∈ d.units, u.IsForest)
    (forest' : ∀ u ∈ d'.units, u.IsForest) (covered : d.Covered) (covered' : d'.Covered)
    (options : LinkOptions) (lexicon : Lexicon) :
    d.naming options lexicon = d'.naming options lexicon := by
  obtain ⟨collected, hcollects⟩ := covered.exists_collected forest options.tagStem lexicon
  obtain ⟨collected', hcollects'⟩ := covered'.exists_collected forest' options.tagStem lexicon
  obtain ⟨pss, hpss, hcs, -⟩ := unfolds_of_collects forest hcollects
  obtain ⟨pss', hpss', hcs', -⟩ := unfolds_of_collects forest' hcollects'
  obtain ⟨tags, words⟩ := assignTags_congr options.tagStem h.tags_eq 0 lexicon
  have tagged : (collected.map (·.unit)).map (·.tag) = (collected'.map (·.unit)).map (·.tag) := by
    rw [tags_of_collect hcollects, tags_of_collect hcollects', tags]
  have count : (collected.map (·.declared)).length = (collected'.map (·.declared)).length := by
    rw [List.length_map, List.length_map, ← hcs.length_eq, ← hcs'.length_eq, ← hpss.length_eq,
      ← hpss'.length_eq, h.units.length_eq]
  have entered : ∀ (i : Nat) (declared declared' : Declared),
      (collected.map (·.declared))[i]? = some declared →
      (collected'.map (·.declared))[i]? = some declared' →
      ∀ space, (declared.of space).map (·.name) = (declared'.of space).map (·.name) :=
    fun _ _ _ hd hd' => h.entered_eq hpss hpss' hcs hcs' hd hd'
  unfold naming
  simp only [hcollects, hcollects', words]
  refine Court.nameAll_congr rfl ?_ ?_ fun space naming name => ?_
  · funext space
    exact congrArg distinct (flatMap_eq_of_getElem? count fun i declared declared' hd hd' =>
      entered i declared declared' hd hd' space)
  · refine flatMap_eq_of_getElem? count fun i declared declared' hd hd' => ?_
    simp only [Catalogue.roll, entered i declared declared' hd hd']
  · refine Court.nameOne_congr ?_ (h.units_of_sites hpss hpss' hcs hcs' space name)
      (tagText_congr tagged)
    refine Court.judge_congr (heard_collected hcs _ _ space name)
      (heard_collected hcs' _ _ space name) ?_ (kinds_declarers pss space name) rfl
      (fun _ _ _ _ => rfl) fun _ _ id _ => ?_
    · rw [nodes_declarers hpss, nodes_declarers hpss', h.declarers_eq]
    · simp only [Court.after, h.types]

end Design.Alike

/-- A visitor that goes by what an operation says and not by where it stands or what it holds. -/
def Visitor.Impartial {σ : Type} (visit : Visitor σ) : Prop :=
  ∀ id id' (op op' : Op) s, op.toNode = op'.toNode → visit id op s = visit id' op' s

namespace Placed

variable {σ : Type} {visit : Visitor σ}

def SweepsAlike (visit : Visitor σ) (p : Placed) : Prop :=
  ∀ q : Placed, p.tree = q.tree → ∀ s, (p.sweep visit s).2 = (q.sweep visit s).2

theorem sweepList_congr {ps qs : List Placed} (each : ∀ p ∈ ps, SweepsAlike visit p)
    (same : ps.map tree = qs.map tree) (s : σ) :
    (sweepList visit ps s).2 = (sweepList visit qs s).2 := by
  induction ps generalizing qs s with
  | nil =>
    obtain rfl : qs = [] := List.map_eq_nil_iff.mp same.symm
    rfl
  | cons p rest ih =>
    obtain ⟨q, others, rfl, head, tail⟩ := List.map_eq_cons_iff.mp same.symm
    have first := each p List.mem_cons_self q head.symm s
    have later := ih (fun r hr => each r (List.mem_cons_of_mem p hr)) tail.symm
    simp only [sweepList, first, later]

theorem sweepRegions_congr {regions others : List (List Placed)}
    (each : ∀ region ∈ regions, ∀ p ∈ region, SweepsAlike visit p)
    (same : regions.map (·.map tree) = others.map (·.map tree)) (s : σ) :
    (sweepRegions visit regions s).2 = (sweepRegions visit others s).2 := by
  induction regions generalizing others s with
  | nil =>
    obtain rfl : others = [] := List.map_eq_nil_iff.mp same.symm
    rfl
  | cons region rest ih =>
    obtain ⟨other, rest', rfl, head, tail⟩ := List.map_eq_cons_iff.mp same.symm
    have first := sweepList_congr (each region List.mem_cons_self) head.symm s
    have later := ih (fun r hr => each r (List.mem_cons_of_mem region hr)) tail.symm
    simp only [sweepRegions, first, later]

theorem sweepsAlike (impartial : Visitor.Impartial visit) (p : Placed) : SweepsAlike visit p := by
  induction p with
  | node id root regions ih =>
    rintro ⟨id', root', regions'⟩ same s
    rw [tree_node, tree_node] at same
    obtain ⟨rfl, nested⟩ := Tree.node.inj same
    have decides := impartial id id' (node id root regions).op (node id' root regions').op s rfl
    simp only [sweep, decides]
    split
    · rfl
    · rfl
    · exact sweepRegions_congr ih nested _

end Placed

theorem RewriteCounts.impartial (renames : Renaming) (unit : Nat) (remap : TyRemap) :
    Visitor.Impartial (RewriteCounts.visit renames unit remap) := by
  intro id id' op op' s same
  simp only [RewriteCounts.visit, same]

theorem Placed.length_entries (ps : List Placed) :
    (ps.flatMap entries).length = total Tree.size (ps.map tree) := by
  induction ps with
  | nil => rfl
  | cons p rest ih => simp only [List.flatMap_cons, List.length_append, List.map_cons, total, ih,
      Placed.size_tree]

theorem LinkUnit.counts_congr {u u' v v' : LinkUnit} {ps ps' : List Placed} (hu : u.Unfolds ps)
    (hu' : u'.Unfolds ps') (same : ps.map Placed.tree = ps'.map Placed.tree) {unit : Nat}
    {renames : Renaming} {remap : TyRemap} {counts counts' : RewriteCounts}
    (h : u.rewrite unit renames remap = .ok (counts, v))
    (h' : u'.rewrite unit renames remap = .ok (counts', v')) : counts = counts' := by
  obtain ⟨⟨erased, w, after⟩, hsweep, h⟩ := bind_eq_ok.mp h
  obtain ⟨⟨erased', w', after'⟩, hsweep', h'⟩ := bind_eq_ok.mp h'
  obtain ⟨ops, -, rfl, swept⟩ := (LinkUnit.sweep_forest_ends hu
    (RewriteCounts.visit renames unit remap) ⟨0, 0, 0⟩).of_ok hsweep
  obtain ⟨ops', -, rfl, swept'⟩ := (LinkUnit.sweep_forest_ends hu'
    (RewriteCounts.visit renames unit remap) ⟨0, 0, 0⟩).of_ok hsweep'
  have balance := swept.count
  have balance' := swept'.count
  have state := Placed.sweepList_congr (fun p _ =>
    Placed.sweepsAlike (RewriteCounts.impartial renames unit remap) p) same ⟨0, 0, 0⟩
  simp only [Placed.length_entries, same,
    Placed.sweepList_rewrites fun p _ => p.rewrites] at balance balance'
  have gone : erased = erased' := by omega
  rw [← state, ← gone] at h'
  cases h
  cases h'
  rfl

namespace Phases

variable {options : LinkOptions} {d d' : Design} {lexicon : Lexicon}
  {p : Phases options d lexicon} {p' : Phases options d' lexicon}

theorem remaps_alike (h : d.Alike d') (named : p.naming = p'.naming) :
    p.remaps = p'.remaps ∧ p.rewritten.types = p'.rewritten.types := by
  have built := p.rewritten_eq.1
  rw [h.types, h.units.length_eq, named, p'.rewritten_eq.1] at built
  obtain ⟨remaps, types⟩ := Prod.mk.inj (Except.ok.inj built)
  exact ⟨remaps.symm, types.symm⟩

theorem merged_alike (h : d.Alike d') (forest : ∀ u ∈ d.units, u.IsForest)
    (forest' : ∀ u ∈ d'.units, u.IsForest) (named : p.naming = p'.naming) :
    joined p.rewritten.units = joined p'.rewritten.units := by
  refine joined_congr ?_
  have moved : p.moved = p'.moved := by
    funext e
    simp only [Phases.moved, Phases.remap, named, (remaps_alike h named).1]
  rw [p.forest_eq forest, p'.forest_eq forest', h.definitions_eq, moved]

theorem counts_alike (h : d.Alike d') (forest : ∀ u ∈ d.units, u.IsForest)
    (forest' : ∀ u ∈ d'.units, u.IsForest) (named : p.naming = p'.naming) :
    p.counts = p'.counts := by
  obtain ⟨pss, hpss, hcs⟩ := p.exists_unfolding forest
  obtain ⟨pss', hpss', hcs'⟩ := p'.exists_unfolding forest'
  obtain ⟨-, -, count, each⟩ := p.rewritten_eq
  obtain ⟨-, -, count', each'⟩ := p'.rewritten_eq
  refine List.ext_getElem? fun unit => ?_
  by_cases inside : unit < d.units.length
  · obtain ⟨u, hu⟩ : ∃ u, d.units[unit]? = some u := ⟨_, List.getElem?_eq_getElem inside⟩
    obtain ⟨u', hu', -, same⟩ := forall₂_getElem? h.units hu
    obtain ⟨ps, hps, unfolds⟩ := forall₂_getElem? hpss hu
    obtain ⟨ps', hps', unfolds'⟩ := forall₂_getElem? hpss' hu'
    obtain ⟨c, hc, of⟩ := forall₂_getElem? hcs hps
    obtain ⟨c', hc', of'⟩ := forall₂_getElem? hcs' hps'
    obtain ⟨counts, remap, v, hremap, -, hcounts, hrewrite⟩ := each unit c hc
    obtain ⟨counts', remap', v', hremap', -, hcounts', hrewrite'⟩ := each' unit c' hc'
    rw [← (remaps_alike h named).1, hremap] at hremap'
    obtain rfl : remap = remap' := Option.some.inj hremap'
    have trees : (ps.filter (·.op.kind.declaration?.isSome)).map Placed.tree =
        (ps'.filter (·.op.kind.declaration?.isSome)).map Placed.tree := by
      rw [← LinkUnit.forest_eq of.unfolds, ← LinkUnit.forest_eq of'.unfolds, of.forest_eq unfolds,
        of'.forest_eq unfolds']
      exact same
    rw [← named] at hrewrite'
    rw [hcounts, hcounts',
      LinkUnit.counts_congr of.unfolds of'.unfolds trees hrewrite hrewrite']
  · have same := h.units.length_eq
    rw [List.getElem?_eq_none (by omega), List.getElem?_eq_none (by omega)]

theorem summary_alike (h : d.Alike d') (forest : ∀ u ∈ d.units, u.IsForest)
    (forest' : ∀ u ∈ d'.units, u.IsForest) (named : p.naming = p'.naming) (declarations : Nat) :
    (p.summary declarations).withoutDebris = (p'.summary declarations).withoutDebris := by
  have units : p.rewritten.units.length = p'.rewritten.units.length := by
    rw [p.rewritten_eq.2.1, p'.rewritten_eq.2.1, h.units.length_eq]
  simp only [Phases.summary, Summary.withoutDebris, units, counts_alike h forest forest' named]

end Phases

theorem finish_alike {verify : Bool} {d d' : Design} {count count' : Nat → Summary}
    {lexicon : Lexicon} {log : Log} (types : d.types = d'.types)
    (merged : joined d.units = joined d'.units) (covered : d.Covered) (covered' : d'.Covered)
    (counts : ∀ n, (count n).withoutDebris = (count' n).withoutDebris) :
    EndAlike (finish verify d count lexicon log) (finish verify d' count' lexicon log) := by
  have merges : mergeUnits d.units = .ok (joined d'.units) :=
    mergeUnits_eq_ok.mpr ⟨covered, merged.symm⟩
  rw [finish, finish, merges, mergeUnits_eq_ok.mpr ⟨covered', rfl⟩, ok_bind, ok_bind, types]
  cases verify with
  | false => exact ⟨congrArg Except.ok (counts _), rfl, fun _ _ => rfl, rfl, rfl⟩
  | true =>
    simp only [if_true]
    cases (joined d'.units).misuses d'.types lexicon with
    | error fault => exact rfl
    | ok misuses =>
      rw [ok_bind, ok_bind]
      cases misuses with
      | nil => exact ⟨congrArg Except.ok (counts _), rfl, fun _ _ => rfl, rfl, rfl⟩
      | cons first others =>
        dsimp only
        cases lexicon.text first.name with
        | error fault => exact rfl
        | ok text => exact ⟨rfl, rfl, fun _ success => (by cases success), rfl, rfl⟩

theorem linkUnits_alike {d d' : Design} {lexicon : Lexicon} (wf : d.WellFormed lexicon)
    (wf' : d'.WellFormed lexicon) (covered : d.Covered) (covered' : d'.Covered) (h : d.Alike d')
    (options : LinkOptions) (log : Log) :
    EndAlike (linkUnits options d lexicon log) (linkUnits options d' lexicon log) := by
  obtain ⟨collected, hcollects⟩ := covered.exists_collected wf.forest options.tagStem lexicon
  obtain ⟨collected', hcollects'⟩ := covered'.exists_collected wf'.forest options.tagStem lexicon
  have same := h.naming_eq wf.forest wf'.forest covered covered' options lexicon
  cases named : d.naming options lexicon with
  | error halt =>
    rw [named] at same
    cases halt with
    | fault fault =>
      rw [linkUnits_of_fault hcollects named, linkUnits_of_fault hcollects' same.symm]
      exact rfl
    | rejected r =>
      obtain ⟨collected, -, hlink⟩ := linkUnits_of_rejected named
      obtain ⟨collected', -, hlink'⟩ := linkUnits_of_rejected same.symm
      rw [hlink log, hlink' log]
      refine ⟨rfl, h.types, fun _ success => ?_, ?_, rfl⟩
      · cases success
      · exact (assignTags_congr options.tagStem h.tags_eq 0 lexicon).2
  | ok naming =>
    rw [named] at same
    obtain ⟨p, hp⟩ := wf.exists_phases covered named
    obtain ⟨p', hp'⟩ := wf'.exists_phases covered' same.symm
    have decided : p.naming = p'.naming := hp.trans hp'.symm
    rw [p.linkUnits_eq, p'.linkUnits_eq, decided]
    exact finish_alike (Phases.remaps_alike h decided).2
      (Phases.merged_alike h wf.forest wf'.forest decided) ((p.covered_iff wf.forest).mpr covered)
      ((p'.covered_iff wf'.forest).mpr covered')
      (Phases.summary_alike h wf.forest wf'.forest decided)

/-- Links of two designs that differ in storage only end alike: with the same summary, debris apart,
or the same failure, with the same diagnostics, with the same types, and, if they succeed, with the
same unit in the same slots; or, if a name has no text, on the same fault. -/
theorem link_alike {d d' : Design} {lexicon : Lexicon} (wf : d.WellFormed lexicon)
    (wf' : d'.WellFormed lexicon) (covered : d.Covered) (covered' : d'.Covered) (h : d.Alike d')
    (pool : WorkerPool) (options : LinkOptions) (log : Log) :
    EndAlike (link pool options d lexicon log) (link pool options d' lexicon log) ∧
      (d.Legible lexicon → ∃ linked linked', link pool options d lexicon log = .ok linked ∧
        link pool options d' lexicon log = .ok linked' ∧ linked.Alike linked') := by
  rcases pool.starts_or options.threads with starts | ⟨reason, stalled⟩
  · rw [link_of_starts starts, link_of_starts starts]
    have alike := linkUnits_alike wf wf' covered covered' h options log
    refine ⟨alike, fun legible => ?_⟩
    obtain ⟨linked, hlinked, -⟩ := linkUnits_answers wf covered legible options log
    rw [hlinked] at alike ⊢
    cases hlinked' : linkUnits options d' lexicon log with
    | error fault =>
      rw [hlinked'] at alike
      exact alike.elim
    | ok linked' =>
      rw [hlinked'] at alike
      exact ⟨linked, linked', rfl, rfl, alike⟩
  · rw [link_of_not_started stalled, link_of_not_started stalled]
    have alike : Linked.Alike
        ⟨.error (.broken s!"failed to start link workers: {reason}"), d, lexicon, log⟩
        ⟨.error (.broken s!"failed to start link workers: {reason}"), d', lexicon, log⟩ :=
      ⟨rfl, h.types, fun _ success => (by cases success), rfl, rfl⟩
    exact ⟨alike, fun _ => ⟨_, _, rfl, rfl, alike⟩⟩

/-- The two units of the example under one identity and with spans. Their operations stand in other
slots, among vacant ones, one that nothing refers to and some that declare nothing. -/
def scatteredDesign : Design where
  types := muxDesign.types
  units :=
    [⟨⟨5⟩, none, ⟨⟨0⟩, 3, 9⟩, ⟨#[some (muxOp (.generic ⟨3⟩) [⟨0⟩, ⟨1⟩] []),
        none,
        some (muxOp (.moduleStub ⟨⟨1⟩, [⟨⟨4⟩, .input, ⟨0⟩⟩]⟩) [] []),
        some (muxOp (.generic ⟨3⟩) [⟨2⟩] [[⟨4⟩]]),
        some (muxOp (.object ⟨2⟩ []) [] []),
        some (muxOp (.moduleDef .local ⟨⟨0⟩, [⟨⟨4⟩, .input, ⟨2⟩⟩]⟩) [⟨1⟩] [[⟨0⟩]]),
        some (muxOp (.classDef ⟨⟨2⟩, [], []⟩) [] []),
        some (muxOp (.moduleDef .exported ⟨⟨0⟩, []⟩) [] [])], 7⟩,
      [⟨6⟩, ⟨3⟩, ⟨5⟩, ⟨2⟩]⟩,
    ⟨⟨5⟩, none, ⟨⟨0⟩, 9, 21⟩, ⟨#[none,
        some (muxOp (.moduleDef .exported ⟨⟨1⟩, [⟨⟨4⟩, .input, ⟨0⟩⟩]⟩) [] []),
        some (muxOp (.moduleDef .local ⟨⟨0⟩, [⟨⟨4⟩, .input, ⟨2⟩⟩]⟩) [⟨0⟩, ⟨1⟩] []),
        some (muxOp (.classDef ⟨⟨2⟩, [], []⟩) [] [])], 3⟩,
      [⟨3⟩, ⟨2⟩, ⟨1⟩]⟩]

theorem scatteredDesign_wellFormed : scatteredDesign.WellFormed muxNames where
  forest := by decide
  typed := by decide
  closed := TyStore.Ordered.closed (by decide)
  acyclic := TyStore.Ordered.acyclic (by decide)
  named := by decide

theorem muxDesign_alike : muxDesign.Alike scatteredDesign where
  types := rfl
  units := .cons ⟨rfl, rfl⟩ (.cons ⟨rfl, rfl⟩ .nil)

/-- Both links of the example succeed, with the same unit. -/
theorem link_alike_scattered :
    muxDesign.WellFormed muxNames ∧ scatteredDesign.WellFormed muxNames ∧ muxDesign.Covered ∧
      scatteredDesign.Covered ∧ muxDesign.Alike scatteredDesign ∧ ∃ linked linked' summary,
        link .granted .standard muxDesign muxNames .empty = .ok linked ∧
        link .granted .standard scatteredDesign muxNames .empty = .ok linked' ∧
        linked.Alike linked' ∧ linked.result = .ok summary ∧
        linked.design.units = linked'.design.units := by
  have covered : muxDesign.Covered := by decide
  have covered' : scatteredDesign.Covered := by decide
  obtain ⟨linked, linked', h, h', alike⟩ := (link_alike muxDesign_wellFormed
    scatteredDesign_wellFormed covered covered' muxDesign_alike .granted .standard .empty).2
    muxDesign_legible
  obtain ⟨found, summary, hfound, success⟩ := Design.links_iff.mp muxDesign_links
  obtain rfl : found = linked := Except.ok.inj (hfound.symm.trans h)
  exact ⟨muxDesign_wellFormed, scatteredDesign_wellFormed, covered, covered', muxDesign_alike,
    found, linked', summary, h, h', alike, success, alike.units summary success⟩

end Linkage
