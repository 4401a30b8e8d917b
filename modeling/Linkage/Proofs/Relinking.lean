import Linkage.Proofs.Acceptance
import Linkage.Proofs.Counters
import Linkage.Proofs.Refinement
import Linkage.Proofs.Uniqueness
/-!
Linking once more. What a checked link leaves, whatever it was given, is one unit of definitions
without stubs and under distinct names; and linking that by itself changes nothing, down to the
slots, because merging numbers the operations by their trees alone.
-/
namespace Linkage

namespace Attr

mutual

theorem rename_id (a : Attr) : a.rename (fun name => name) = a := by
  cases a with
  | array items => exact congrArg Attr.array (renameItems_id items)
  | dict entries => exact congrArg Attr.dict (renameEntries_id entries)
  | _ => rfl

theorem renameItems_id (items : List Attr) : renameItems (fun name => name) items = items := by
  cases items with
  | nil => rfl
  | cons item rest => rw [renameItems, rename_id item, renameItems_id rest]

theorem renameEntries_id (entries : List (Name × Attr)) :
    renameEntries (fun name => name) entries = entries := by
  cases entries with
  | nil => rfl
  | cons entry rest => rw [renameEntries, rename_id entry.2, renameEntries_id rest]

end

end Attr

theorem Node.substitute_id (n : Node) : n.substitute (fun name => name) (fun id => id) = n := by
  obtain ⟨kind, span, attrs, results⟩ := n
  have same : kind.substitute (fun name => name) (fun id => id) = kind := by
    cases kind <;> simp [OpKind.substitute, ClassHead.substitute, ModuleHead.substitute]
  simp [substitute, same, ← Attr.rename_eq, Attr.rename_id]

namespace Tree

theorem mapNodes_eq_self {f : Node → Node} (fixed : ∀ n, f n = n) (t : Tree) :
    t.mapNodes f = t := by
  induction t with
  | node root regions ih =>
    rw [mapNodes_node, fixed]
    refine congrArg _ ((List.map_congr_left fun region hregion => ?_).trans (List.map_id' regions))
    exact (List.map_congr_left (ih region hregion)).trans (List.map_id' region)

theorem StubFree.withoutStubs_eq {t : Tree} (h : t.StubFree) : t.withoutStubs = t := by
  induction t with
  | node root regions ih =>
    rw [withoutStubs_node]
    refine congrArg _ ((List.map_congr_left fun region hregion => ?_).trans (List.map_id' regions))
    have inside : ∀ t ∈ region, t.StubFree := fun t ht n hn => h n (by
      rw [nodes_node]
      exact List.mem_cons_of_mem _ (List.mem_flatMap.mpr
        ⟨t, List.mem_flatten.mpr ⟨region, hregion, ht⟩, hn⟩))
    have whole : region.filter (!·.root.kind.isStub) = region :=
      List.filter_eq_self.mpr fun t ht => by simp [inside t ht _ t.root_mem_nodes]
    rw [dropStubs_eq, whole]
    exact (List.map_congr_left fun t ht => ih region hregion t ht (inside t ht)).trans
      (List.map_id' region)

end Tree

theorem joined_congr {units units' : List LinkUnit}
    (h : units.flatMap LinkUnit.forest = units'.flatMap LinkUnit.forest) :
    joined units = joined units' := by
  rw [joined, joined, h]

theorem Renaming.touches_eq_false {r : Renaming} {unit : Nat}
    (h : ∀ name, r.get? unit name = none) : r.touches unit = false := by
  by_contra touched
  rw [Bool.not_eq_false, touches, List.any_eq_true] at touched
  obtain ⟨⟨⟨unit', name⟩, new⟩, hmem, same⟩ := touched
  obtain rfl : unit' = unit := by simpa using same
  simpa using List.lookup_eq_none_iff.mp (h name) _ hmem

theorem TyRemap.buildAll_of_untouched {renames : Renaming}
    (untouched : ∀ unit, renames.touches unit = false) (types : TyStore) (count : Nat) :
    buildAll types count renames = .ok (List.replicate count empty, types) := by
  have each : ∀ units : List Nat, mapAccumM (fun now unit =>
      if renames.touches unit then build (renames.get? unit) types.ids now
      else .ok (empty, now)) types units = .ok (units.map fun _ => empty, types) := by
    intro units
    induction units with
    | nil => rfl
    | cons unit rest ih =>
      refine mapAccumM_cons_eq_ok.mpr ⟨empty, types, _, ?_, ih, rfl⟩
      rw [untouched]
      rfl
  rw [buildAll, each, List.map_const', List.length_range]

namespace Placed

variable {σ : Type} {visit : Visitor σ}

theorem sweepList_state {ps : List Placed} (each : ∀ p ∈ ps, ∀ s, (p.sweep visit s).2 = s) (s : σ) :
    (sweepList visit ps s).2 = s := by
  induction ps generalizing s with
  | nil => rfl
  | cons p rest ih =>
    simp only [sweepList, each p List.mem_cons_self,
      ih fun q hq => each q (List.mem_cons_of_mem p hq)]

theorem sweepRegions_state {regions : List (List Placed)}
    (each : ∀ region ∈ regions, ∀ p ∈ region, ∀ s, (p.sweep visit s).2 = s) (s : σ) :
    (sweepRegions visit regions s).2 = s := by
  induction regions generalizing s with
  | nil => rfl
  | cons region rest ih =>
    simp only [sweepRegions, sweepList_state (each region List.mem_cons_self),
      ih fun r hr => each r (List.mem_cons_of_mem region hr)]

theorem sweep_visit_state {renames : Renaming} {unit : Nat} (kept : ∀ name,
      renames.get? unit name = none) (remap : TyRemap) {p : Placed} (clean : p.tree.StubFree)
    (counts : RewriteCounts) :
    (p.sweep (RewriteCounts.visit renames unit remap) counts).2 = counts := by
  induction p generalizing counts with
  | node id root regions ih =>
    rw [tree_node] at clean
    have real : root.kind.isStub = false := clean root (Tree.root_mem_nodes (.node root _))
    have descends : RewriteCounts.visit renames unit remap id (node id root regions).op counts =
        (.descend, root.rewrite renames unit remap, counts) := by
      have none_ : root.kind.declared?.bind (renames.get? unit) = none :=
        Option.bind_eq_none_iff.mpr fun name _ => kept name
      simp [RewriteCounts.visit, op, real, none_]
    simp only [sweep, descends]
    refine sweepRegions_state (fun region hregion p hp => ih region hregion p hp ?_) counts
    intro n hn
    refine clean n ?_
    rw [Tree.nodes_node]
    exact List.mem_cons_of_mem _ (List.mem_flatMap.mpr ⟨p.tree, List.mem_flatten.mpr
      ⟨_, List.mem_map_of_mem hregion, List.mem_map_of_mem hp⟩, hn⟩)

end Placed

/-- A unit in which a link finds nothing to do. -/
structure LinkUnit.Finished (u : LinkUnit) : Prop where
  forest : u.IsForest
  definitions : ∀ t ∈ u.forest, t.root.kind.isDefinition = true ∧ t.StubFree
  names : u.declaredNames.Nodup
  covered : u.Covered
  untagged : u.tag = none

namespace LinkUnit.Finished

variable {u : LinkUnit} {types : TyStore} {options : LinkOptions} {lexicon : Lexicon}

theorem declares_isSome (h : u.Finished) {t : Tree} (ht : t ∈ u.forest) :
    t.root.kind.declaration?.isSome = true ∧ t.root.kind.isStub = false := by
  have definition := (h.definitions t ht).1
  rw [OpKind.isDefinition_eq, Bool.and_eq_true, Bool.not_eq_true'] at definition
  exact definition

theorem forests (h : u.Finished) (types : TyStore) :
    ∀ v ∈ (⟨types, [u]⟩ : Design).units, v.IsForest := by
  simpa using h.forest

theorem counted (h : u.Finished) (types : TyStore) : (⟨types, [u]⟩ : Design).Covered :=
  List.forall_mem_singleton.mpr h.covered

theorem length_declarers_le (h : u.Finished) (types : TyStore) (space : Space) (name : Name) :
    ((⟨types, [u]⟩ : Design).declarers space name).length ≤ 1 := by
  have unique : (⟨types, [u]⟩ : Design).UniqueNames := fun v hv => by
    obtain rfl := List.mem_singleton.mp hv
    exact h.names
  have few := unique.length_declares_le (List.mem_singleton_self u) space name
  simpa [Design.declarers] using few

theorem acceptable (h : u.Finished) {space : Space} {name : Name}
    (declared : (⟨types, [u]⟩ : Design).declarers space name ≠ []) :
    (⟨types, [u]⟩ : Design).Acceptable space name := by
  obtain ⟨e, only⟩ : ∃ e, (⟨types, [u]⟩ : Design).declarers space name = [e] :=
    List.length_eq_one_iff.mp
      (Nat.le_antisymm (h.length_declarers_le types space name) (List.length_pos_iff.mpr declared))
  obtain ⟨v, hv, hmem, -⟩ := Design.mem_declarers.mp (only ▸ List.mem_singleton_self e)
  obtain rfl : v = u := List.mem_singleton.mp (List.mem_of_getElem? hv)
  have real := (h.declares_isSome hmem).2
  rw [Design.Acceptable, only, List.map_singleton]
  refine ⟨⟨false, .together e.2.root.kind (by simp [real]) ?_⟩, fun _ _ _ => by simp [real]⟩
  intro stub hstub isStub
  rw [List.mem_singleton.mp hstub, real] at isStub
  cases isStub

theorem get?_eq_none (h : u.Finished) {naming : Naming}
    (named : Design.naming options ⟨types, [u]⟩ lexicon = .ok naming) (unit : Nat) (name : Name) :
    naming.renames.get? unit name = none := by
  obtain ⟨collected, hcollects, named⟩ := Design.collects_of_naming named
  obtain ⟨pss, hpss, hcs, -⟩ := Design.unfolds_of_collects (h.forests types) hcollects
  obtain ⟨-, -, renamed⟩ := Court.nameAll_ok named
  refine Option.not_isSome_iff_eq_none.mp fun some_ => ?_
  obtain ⟨space, judged, site, hsite, -⟩ := (renamed unit name).mp some_
  obtain ⟨ops, hops, ⟨-, several⟩⟩ := judged.settled
  have few := h.length_declarers_le types space name
  rw [← Placed.map_tree_declarers hpss, List.length_map] at few
  have count := hops.length_eq
  rw [← Placed.map_site_declarers hcs, List.length_map] at count
  rw [← Placed.map_site_declarers hcs, RenamePolicy.choose_map] at hsite
  obtain ⟨e, he, -⟩ := List.mem_map.mp hsite
  have positive := List.length_pos_of_mem (RenamePolicy.choose_subset options.policy he)
  rw [List.length_map] at several
  omega

theorem untouched (h : u.Finished) {naming : Naming}
    (named : Design.naming options ⟨types, [u]⟩ lexicon = .ok naming) :
    TyRemap.buildAll types 1 naming.renames = .ok ([.empty], types) :=
  TyRemap.buildAll_of_untouched (fun unit => Renaming.touches_eq_false (h.get?_eq_none named unit))
    types 1

theorem nonempty_phases (h : u.Finished) (types : TyStore) (options : LinkOptions)
    (known : ∀ name ∈ u.declaredNames, name.index < lexicon.size) :
    Nonempty (Phases options ⟨types, [u]⟩ lexicon) := by
  have names : ∀ v ∈ (⟨types, [u]⟩ : Design).units, ∀ t ∈ v.forest, ∀ name ∈ t.root.kind.declared?,
      name.index < lexicon.size := by
    intro v hv t ht name hname
    obtain rfl := List.mem_singleton.mp hv
    exact known name (LinkUnit.mem_declaredNames.mpr ⟨t, ht, hname⟩)
  have tags : ∀ v ∈ (⟨types, [u]⟩ : Design).units, ∀ tag ∈ v.tag, tag.index < lexicon.size := by
    intro v hv tag htag
    obtain rfl := List.mem_singleton.mp hv
    rw [h.untagged] at htag
    cases htag
  have members : ∀ v ∈ (⟨types, [u]⟩ : Design).units, ∀ t ∈ v.forest, t.root.kind.isStub = true →
      ∀ name ∈ t.root.kind.members, name.index < lexicon.size := by
    intro v hv t ht stub
    obtain rfl := List.mem_singleton.mp hv
    rw [(h.declares_isSome ht).2] at stub
    cases stub
  obtain ⟨naming, named⟩ := Design.exists_naming (h.forests types) (h.counted types) names tags
    members (fun _ _ => h.acceptable) options
  obtain ⟨p, -⟩ := exists_phases (h.forests types) (h.counted types) named (h.untouched named)
  exact ⟨p⟩

theorem remaps_eq (h : u.Finished) (p : Phases options ⟨types, [u]⟩ lexicon) :
    p.remaps = [.empty] ∧ p.rewritten.types = types := by
  have built := (h.untouched p.naming_eq).symm.trans p.rewritten_eq.1
  obtain ⟨remaps, types⟩ := Prod.mk.inj (Except.ok.inj built)
  exact ⟨remaps.symm, types.symm⟩

theorem forest_eq (h : u.Finished) (p : Phases options ⟨types, [u]⟩ lexicon) :
    p.rewritten.units.flatMap LinkUnit.forest = u.forest := by
  have fixed : ∀ t, p.moved (0, t) = t := by
    have names : p.naming.renames.apply 0 = fun name => name := funext fun name =>
      Renaming.apply_eq_of_none (h.get?_eq_none p.naming_eq 0 name)
    have ids : p.remap 0 = fun id => id := by
      funext id
      rw [Phases.remap, (h.remaps_eq p).1]
      rfl
    intro t
    rw [Phases.moved, names, ids]
    exact Tree.mapNodes_eq_self Node.substitute_id t
  have whole : u.forest.filter (·.root.kind.isDefinition) = u.forest :=
    List.filter_eq_self.mpr fun t ht => (h.definitions t ht).1
  rw [p.forest_eq (h.forests types), Design.definitions, List.zipIdx_singleton,
    List.flatMap_singleton]
  dsimp only
  rw [whole, List.map_map]
  refine (List.map_congr_left fun t ht => ?_).trans (List.map_id' u.forest)
  rw [Function.comp_apply, fixed, (h.definitions t ht).2.withoutStubs_eq]

theorem summary_eq (h : u.Finished) (p : Phases options ⟨types, [u]⟩ lexicon) (declarations : Nat) :
    p.summary declarations = ⟨1, 0, 0, 0, declarations⟩ := by
  obtain ⟨pss, hpss, hcs⟩ := p.exists_unfolding (h.forests types)
  obtain ⟨ps, _, unfolds, last, rfl⟩ := List.forall₂_cons_left_iff.mp hpss
  cases last
  obtain ⟨c, _, of, last, hcollected⟩ := List.forall₂_cons_left_iff.mp hcs
  cases last
  obtain ⟨-, same, counted, each⟩ := p.rewritten_eq
  obtain ⟨counts, hcounts⟩ := List.length_eq_one_iff.mp counted
  obtain ⟨counts', remap, u', -, -, hcounts', hrewrite⟩ :=
    each 0 c (by rw [hcollected]; rfl)
  obtain rfl : counts = counts' := by simpa [hcounts] using hcounts'
  have whole : ps.filter (·.op.kind.declaration?.isSome) = ps :=
    List.filter_eq_self.mpr fun q hq => by
      have hmem : q.tree ∈ u.forest := LinkUnit.forest_eq unfolds ▸ List.mem_map_of_mem hq
      have declares := (h.declares_isSome hmem).1
      rwa [Placed.root_tree] at declares
  have collected := of.unfolds
  have debris := of.debris
  rw [whole] at collected debris
  -- a sweep that counts nothing ends with the counts it began with
  obtain ⟨⟨erased, v, after⟩, hsweep, h'⟩ := bind_eq_ok.mp hrewrite
  obtain ⟨ops, -, rfl, -⟩ := (LinkUnit.sweep_forest_ends collected
    (RewriteCounts.visit p.naming.renames 0 remap) ⟨0, 0, 0⟩).of_ok hsweep
  rw [Placed.sweepList_state fun q hq => Placed.sweep_visit_state
    (h.get?_eq_none p.naming_eq 0) remap
    (h.definitions _ (LinkUnit.forest_eq unfolds ▸ List.mem_map_of_mem hq)).2] at h'
  cases h'
  have none_ : c.debris = 0 := by omega
  have one : p.rewritten.units.length = 1 := same
  simp [Phases.summary, hcollected, hcounts, total, none_, one]

end LinkUnit.Finished

namespace Phases

variable {options : LinkOptions} {d : Design} {lexicon : Lexicon}

/-- What a link leaves that was checked is finished. -/
theorem finished (p : Phases options d lexicon) {lexicon' : Lexicon}
    (checked : (joined p.rewritten.units).misuses p.rewritten.types lexicon' = .ok []) :
    (joined p.rewritten.units).Finished := by
  have forest := (joined_forest p.rewritten.units).1
  refine ⟨forest, fun t ht => ?_, (LinkUnit.fits_of_misuses forest checked).1,
    LinkUnit.covered_of_exact (exact_joined _), rfl⟩
  obtain ⟨definition, clean, -⟩ := p.remnant ht
  exact ⟨definition, clean⟩

end Phases

/-- Linking what a checked link left changes nothing, with whatever options and with all the names
there are by then, and says nothing. -/
theorem relink_unchanged {pool : WorkerPool} {options : LinkOptions} {d : Design}
    {lexicon : Lexicon} {log : Log} {linked : Linked} {summary : Summary}
    (verified : options.verify = true)
    (h : link pool options d lexicon log = .ok linked) (success : linked.result = .ok summary)
    {pool' : WorkerPool} (options' : LinkOptions) (starts : pool'.Starts options'.threads)
    {lexicon' : Lexicon} (grown : linked.lexicon.size ≤ lexicon'.size) (log' : Log) :
    ∃ again, link pool' options' linked.design lexicon' log' = .ok again ∧
      again.result = .ok ⟨1, 0, 0, 0, summary.declarations⟩ ∧
      again.design = linked.design ∧ again.log = log' := by
  obtain ⟨-, h⟩ := starts_of_link h success
  rcases linkUnits_cases h with ⟨r, -, failure, -⟩ | ⟨p, hfinish⟩
  · rw [failure] at success
    cases success
  obtain ⟨-, hdesign, hlexicon, -, rfl, checked⟩ := finish_phases hfinish success
  have finished := p.finished (checked verified)
  have known : ∀ name ∈ (joined p.rewritten.units).declaredNames, name.index < lexicon'.size :=
    fun name hname => Nat.lt_of_lt_of_le (p.known_declaredNames name hname) (hlexicon ▸ grown)
  obtain ⟨q⟩ := finished.nonempty_phases p.rewritten.types options' known
  have types := (finished.remaps_eq q).2
  -- the trees are the same, and the slots follow from the trees
  have merged : joined q.rewritten.units = joined p.rewritten.units :=
    joined_congr ((finished.forest_eq q).trans (joined_forest _).2)
  have clean : (joined q.rewritten.units).misuses q.rewritten.types q.naming.lexicon =
      .ok [] := by
    refine (LinkUnit.misuses_eq_nil_iff (joined_forest _).1 q.known_declaredNames).mpr ?_
    rw [merged, types]
    exact LinkUnit.fits_of_misuses finished.forest (checked verified)
  have counted := (q.covered_iff (finished.forests _)).mpr (finished.counted _)
  rw [hdesign, link_of_starts starts, q.linkUnits_eq,
    finish_eq counted q.summary log' fun _ => clean, merged, types, finished.summary_eq q]
  exact ⟨_, rfl, rfl, rfl, rfl⟩

/-- The checked link of the two units of the same class and module is linked once more, with other
options. -/
theorem relink_unchanged_mux :
    ∃ linked summary again, link .granted .standard muxDesign muxNames .empty = .ok linked ∧
      linked.result = .ok summary ∧
      link .granted ⟨.renameAll, "unit", 1, false⟩ linked.design linked.lexicon linked.log =
        .ok again ∧
      again.result = .ok ⟨1, 0, 0, 0, summary.declarations⟩ ∧ again.design = linked.design := by
  obtain ⟨linked, summary, h, success⟩ := Design.links_iff.mp muxDesign_links
  have starts : WorkerPool.granted.Starts 1 := rfl
  obtain ⟨again, h', success', same, -⟩ := relink_unchanged rfl h success
    ⟨.renameAll, "unit", 1, false⟩ starts (Nat.le_refl linked.lexicon.size) linked.log
  exact ⟨linked, summary, again, h, success, h', success', same⟩

end Linkage
