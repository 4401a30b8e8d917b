import Linkage.Proofs.Layouts
import Mathlib.Data.List.Perm.Basic
/-!
What a link says it did. The operations of the units are parted in three: those below a top-level
operation that declares nothing, those in a stub, and those of the definitions. Collecting counts
the first, rewriting the second, and the third are what the merged unit holds, each in a slot of
its own and no slot left over.
-/
namespace Linkage

namespace Tree

mutual

/-- The stubs that stand in no other stub, each with what it contains. -/
def stubs : Tree → List Tree
  | .node root regions =>
    if root.kind.isStub then [.node root regions] else stubsOfRegions regions

def stubsOfList : List Tree → List Tree
  | [] => []
  | t :: rest => stubs t ++ stubsOfList rest

def stubsOfRegions : List (List Tree) → List Tree
  | [] => []
  | region :: rest => stubsOfList region ++ stubsOfRegions rest

end

theorem stubs_node (root : Node) (regions : List (List Tree)) :
    (node root regions).stubs =
      if root.kind.isStub then [.node root regions] else regions.flatten.flatMap stubs := by
  have inList : ∀ ts : List Tree, stubsOfList ts = ts.flatMap stubs := by
    intro ts
    induction ts with
    | nil => rfl
    | cons t rest ih => simp only [stubsOfList, ih, List.flatMap_cons]
  have nested : stubsOfRegions regions = regions.flatten.flatMap stubs := by
    induction regions with
    | nil => rfl
    | cons region rest ih =>
      simp only [stubsOfRegions, inList, ih, List.flatten_cons, List.flatMap_append]
  rw [stubs, nested]

theorem length_nodes (t : Tree) : t.nodes.length = t.size := by
  induction t with
  | node root regions ih =>
    have inRegion : ∀ region ∈ regions, (nodesOfList region).length = sizeOfList region := by
      intro region hregion
      have each := ih region hregion
      clear ih hregion
      induction region with
      | nil => rfl
      | cons t rest ih =>
        obtain ⟨first, others⟩ := List.forall_mem_cons.mp each
        simp only [nodesOfList, sizeOfList, List.length_append, first, ih others]
    have inRegions : (nodesOfRegions regions).length = sizeOfRegions regions := by
      clear ih
      induction regions with
      | nil => rfl
      | cons region rest ih =>
        obtain ⟨first, others⟩ := List.forall_mem_cons.mp inRegion
        simp only [nodesOfRegions, sizeOfRegions, List.length_append, first, ih others]
    simp only [nodes, size, List.length_cons, inRegions]
    omega

theorem total_size (ts : List Tree) : total size ts = (ts.flatMap nodes).length := by
  induction ts with
  | nil => rfl
  | cons t rest ih => simp only [total, ih, List.flatMap_cons, List.length_append, length_nodes]

theorem sizeOfList_eq (ts : List Tree) : sizeOfList ts = (ts.flatMap nodes).length := by
  induction ts with
  | nil => rfl
  | cons t rest ih =>
    simp only [sizeOfList, ih, List.flatMap_cons, List.length_append, length_nodes]

theorem dropStubs_append (ts us : List Tree) :
    dropStubs (ts ++ us) = dropStubs ts ++ dropStubs us := by
  simp only [dropStubs_eq, List.filter_append, List.map_append]

theorem flatten_map_dropStubs (regions : List (List Tree)) :
    (regions.map dropStubs).flatten = dropStubs regions.flatten := by
  induction regions with
  | nil => rfl
  | cons region rest ih => simp only [List.map_cons, List.flatten_cons, ih, dropStubs_append]

theorem flatMap_dropStubs (ts : List Tree) :
    ts.flatMap (fun t => dropStubs [t]) = dropStubs ts := by
  induction ts with
  | nil => rfl
  | cons t rest ih => rw [List.flatMap_cons, ih, ← dropStubs_append, List.singleton_append]

theorem dropStubs_node (root : Node) (regions : List (List Tree)) :
    dropStubs [node root regions] =
      if root.kind.isStub then [] else [.node root (regions.map dropStubs)] := by
  rw [dropStubs, withoutStubs_node, dropStubs]
  rfl

/-- Every operation of the trees either stays when the stubs go or is in one of the stubs that
stand in no other. -/
theorem nodes_perm_of_mem {ts : List Tree}
    (each : ∀ t ∈ ts, t.nodes.Perm ((dropStubs [t]).flatMap nodes ++ t.stubs.flatMap nodes)) :
    (ts.flatMap nodes).Perm ((dropStubs ts).flatMap nodes ++ (ts.flatMap stubs).flatMap nodes) := by
  rw [← flatMap_dropStubs, List.flatMap_assoc, List.flatMap_assoc]
  exact (List.Perm.flatMap_left ts each).trans (List.flatMap_append_perm ts _ _).symm

theorem nodes_perm (t : Tree) :
    t.nodes.Perm ((dropStubs [t]).flatMap nodes ++ t.stubs.flatMap nodes) := by
  induction t with
  | node root regions ih =>
    have nested := nodes_perm_of_mem fun t (ht : t ∈ regions.flatten) => by
      obtain ⟨region, hregion, hmem⟩ := List.mem_flatten.mp ht
      exact ih region hregion t hmem
    rw [stubs_node, dropStubs_node]
    by_cases stub : root.kind.isStub = true
    · simp only [if_pos stub, List.flatMap_nil, List.nil_append, List.flatMap_singleton]
      exact .refl _
    · simp only [if_neg stub, List.flatMap_singleton, nodes_node, flatten_map_dropStubs,
        List.cons_append]
      exact nested.cons root

theorem nodes_dropStubs_perm (ts : List Tree) :
    (ts.flatMap nodes).Perm ((dropStubs ts).flatMap nodes ++ (ts.flatMap stubs).flatMap nodes) :=
  nodes_perm_of_mem fun t _ => t.nodes_perm

end Tree

def Node.renamed (renames : Renaming) (unit : Nat) (n : Node) : Bool :=
  n.kind.isDefinition && (n.kind.declared?.bind (renames.get? unit)).isSome

theorem OpKind.isDefinition_of_declared {kind : OpKind} {name : Name}
    (declared : kind.declared? = some name) (other : ¬ kind.isStub = true) :
    kind.isDefinition = true := by
  cases kind <;> simp [declared?, isStub, isDefinition] at *

namespace RewriteCounts

def past (renames : Renaming) (unit : Nat) (counts : RewriteCounts) (gone kept : List Tree) :
    RewriteCounts where
  stubsErased := counts.stubsErased + gone.length
  opsErased := counts.opsErased
  renamesApplied := counts.renamesApplied +
    ((kept.flatMap Tree.nodes).filter (Node.renamed renames unit)).length

theorem past_past (renames : Renaming) (unit : Nat) (counts : RewriteCounts)
    (gone kept gone' kept' : List Tree) :
    (counts.past renames unit gone kept).past renames unit gone' kept' =
      counts.past renames unit (gone ++ gone') (kept ++ kept') := by
  simp only [past, List.length_append, List.flatMap_append, List.filter_append, Nat.add_assoc]

theorem visit_eq (renames : Renaming) (unit : Nat) (remap : TyRemap) (counts : RewriteCounts)
    (id : OpId) (op : Op) :
    visit renames unit remap id op counts =
      if op.kind.isStub then
        (.erase, op.toNode, { counts with stubsErased := counts.stubsErased + 1 })
      else
        (.descend, op.toNode.rewrite renames unit remap,
          { counts with renamesApplied := counts.renamesApplied +
            ([op.toNode].filter (Node.renamed renames unit)).length }) := by
  unfold visit
  by_cases stub : op.kind.isStub = true
  · rw [if_pos stub, if_pos stub]
  · rw [if_neg stub, if_neg stub]
    have same : Node.renamed renames unit op.toNode =
        (op.kind.declared?.bind (renames.get? unit)).isSome := by
      unfold Node.renamed
      cases declared : op.kind.declared? with
      | none => simp
      | some name => simp [OpKind.isDefinition_of_declared declared stub]
    rw [← same]
    cases hrenamed : Node.renamed renames unit op.toNode <;> simp [hrenamed]

end RewriteCounts

namespace Placed

variable {renames : Renaming} {unit : Nat} {remap : TyRemap}

/-- Rewriting counts the stubs that stand in no other, and the definitions under new names among
what is left. -/
def Tallies (renames : Renaming) (unit : Nat) (remap : TyRemap) (p : Placed) : Prop :=
  ∀ counts, (p.sweep (RewriteCounts.visit renames unit remap) counts).2 =
    counts.past renames unit p.tree.stubs (Tree.dropStubs [p.tree])

theorem sweepList_tallies {ps : List Placed} (each : ∀ p ∈ ps, Tallies renames unit remap p)
    (counts : RewriteCounts) :
    (sweepList (RewriteCounts.visit renames unit remap) ps counts).2 =
      counts.past renames unit ((ps.map tree).flatMap Tree.stubs)
        (Tree.dropStubs (ps.map tree)) := by
  induction ps generalizing counts with
  | nil => rfl
  | cons p rest ih =>
    obtain ⟨first, others⟩ := List.forall_mem_cons.mp each
    simp only [sweepList, ih others, first counts, RewriteCounts.past_past, List.map_cons,
      List.flatMap_cons, ← Tree.dropStubs_append, List.singleton_append]

theorem sweepRegions_tallies {regions : List (List Placed)}
    (each : ∀ region ∈ regions, ∀ p ∈ region, Tallies renames unit remap p)
    (counts : RewriteCounts) :
    (sweepRegions (RewriteCounts.visit renames unit remap) regions counts).2 =
      counts.past renames unit ((regions.flatten.map tree).flatMap Tree.stubs)
        (Tree.dropStubs (regions.flatten.map tree)) := by
  induction regions generalizing counts with
  | nil => rfl
  | cons region rest ih =>
    obtain ⟨first, others⟩ := List.forall_mem_cons.mp each
    simp only [sweepRegions, ih others, sweepList_tallies first, RewriteCounts.past_past,
      List.flatten_cons, List.map_append, List.flatMap_append, Tree.dropStubs_append]

theorem tallies (p : Placed) : Tallies renames unit remap p := by
  induction p with
  | node id root regions ih =>
    intro counts
    have answer :=
      RewriteCounts.visit_eq renames unit remap counts id (node id root regions).op
    rw [tree_node, Tree.stubs_node, Tree.dropStubs_node]
    by_cases stub : root.kind.isStub = true
    · rw [show (node id root regions).op.kind = root.kind from rfl, if_pos stub] at answer
      simp only [sweep, answer, if_pos stub]
      rfl
    · rw [show (node id root regions).op.kind = root.kind from rfl, if_neg stub] at answer
      simp only [sweep, answer, sweepRegions_tallies ih, if_neg stub, RewriteCounts.past,
        Tree.nodes_node, Tree.flatten_map_dropStubs, ← List.map_flatten, List.flatMap_singleton]
      rw [Nat.add_assoc, ← List.length_append, ← List.filter_append]
      rfl

end Placed

theorem LinkUnit.rewrite_counts {u u' : LinkUnit} {ps : List Placed} (h : u.Unfolds ps)
    {unit : Nat} {renames : Renaming} {remap : TyRemap} {counts : RewriteCounts}
    (hr : u.rewrite unit renames remap = .ok (counts, u')) :
    counts.stubsErased = (u.forest.flatMap Tree.stubs).length ∧
      counts.opsErased = ((u.forest.flatMap Tree.stubs).flatMap Tree.nodes).length ∧
      counts.renamesApplied = (((Tree.dropStubs u.forest).flatMap Tree.nodes).filter
        (Node.renamed renames unit)).length := by
  obtain ⟨⟨erased, _, _⟩, hsweep, hr⟩ := bind_eq_ok.mp hr
  obtain ⟨ops, -, rfl, swept⟩ :=
    (sweep_forest_ends h (RewriteCounts.visit renames unit remap) ⟨0, 0, 0⟩).of_ok hsweep
  have hcount := swept.count
  cases hr
  have tallied := Placed.sweepList_tallies
    (fun p (_ : p ∈ ps) => (p.tallies : Placed.Tallies renames unit remap p)) ⟨0, 0, 0⟩
  have kept := Placed.sweepList_rewrites
    (fun p (_ : p ∈ ps) => (p.rewrites : Placed.Rewrites renames unit remap p)) ⟨0, 0, 0⟩
  have parted := (Tree.nodes_dropStubs_perm u.forest).length_eq
  refine ⟨?_, ?_, ?_⟩
  · rw [tallied, LinkUnit.forest_eq h]
    exact Nat.zero_add _
  · have changed : ∀ t : Tree,
        (t.mapNodes (Node.substitute (renames.apply unit) remap.apply)).nodes.length =
          t.nodes.length := fun t => by rw [Tree.nodes_mapNodes, List.length_map]
    simp only [Placed.length_entries, Tree.total_size, kept, ← LinkUnit.forest_eq h,
      List.flatMap_map] at hcount
    simp only [List.length_flatMap, changed, List.length_append] at hcount parted ⊢
    omega
  · rw [tallied, LinkUnit.forest_eq h]
    exact Nat.zero_add _

theorem total_eq_length {α β γ : Type} {count : α → Nat} {parts : β → List γ} {xs : List α}
    {ys : List β} (same : xs.length = ys.length)
    (each : ∀ (i : Nat) (x : α) (y : β), xs[i]? = some x → ys[i]? = some y →
      count x = (parts y).length) : total count xs = (ys.flatMap parts).length := by
  induction xs generalizing ys with
  | nil => cases ys with
    | nil => rfl
    | cons y ys => cases same
  | cons x xs ih => cases ys with
    | nil => cases same
    | cons y ys =>
      rw [total, List.flatMap_cons, List.length_append, each 0 x y rfl rfl,
        ih (Nat.succ.inj same) fun i => each (i + 1)]

def LinkUnit.debris (u : LinkUnit) : List Tree :=
  u.forest.filter (·.root.kind.declaration?.isNone)

theorem LinkUnit.forest_perm (u : LinkUnit) : u.forest.Perm (u.debris ++ u.declarations) := by
  have split := List.filter_append_perm (·.root.kind.declaration?.isNone) u.forest
  simp only [Option.not_isNone] at split
  exact split.symm

namespace Design

/-- The trees at top level that declare nothing. -/
def debris (d : Design) : List Tree := d.units.flatMap LinkUnit.debris

/-- The stubs in the trees that declare something, without those inside other stubs. -/
def stubs (d : Design) : List Tree :=
  d.units.flatMap fun u => u.declarations.flatMap Tree.stubs

/-- The operations of the definitions, each with the position of its unit. -/
def kept (d : Design) : List (Nat × Node) :=
  d.definitions.flatMap fun (unit, t) => t.nodes.map (unit, ·)

theorem kept_eq (d : Design) :
    d.kept = d.units.zipIdx.flatMap fun (u, unit) =>
      ((Tree.dropStubs u.declarations).flatMap Tree.nodes).map (unit, ·) := by
  simp only [kept, definitions, LinkUnit.declarations, List.flatMap_assoc, List.flatMap_map,
    List.map_flatMap, Tree.dropStubs_filter]

theorem kept_nodes (d : Design) :
    d.kept.map (·.2) = d.units.flatMap fun u =>
      (Tree.dropStubs u.declarations).flatMap Tree.nodes := by
  have positions : d.units.zipIdx.map (·.1) = d.units := List.zipIdx_map_fst 0 d.units
  rw [kept_eq, List.map_flatMap]
  conv_rhs => rw [← positions, List.flatMap_map]
  refine List.flatMap_congr fun e _ => ?_
  rw [List.map_map]
  exact List.map_id _

/-- An operation has one of three places: in debris, in a stub or in a definition. -/
theorem nodes_perm (d : Design) :
    ((d.units.flatMap LinkUnit.forest).flatMap Tree.nodes).Perm
      (d.debris.flatMap Tree.nodes ++ (d.stubs.flatMap Tree.nodes ++ d.kept.map (·.2))) := by
  have each : ∀ u ∈ d.units, (u.forest.flatMap Tree.nodes).Perm
      (u.debris.flatMap Tree.nodes ++ ((u.declarations.flatMap Tree.stubs).flatMap Tree.nodes ++
        (Tree.dropStubs u.declarations).flatMap Tree.nodes)) := by
    intro u _
    have parted := (Tree.nodes_dropStubs_perm u.declarations).trans List.perm_append_comm
    refine (u.forest_perm.flatMap_right Tree.nodes).trans ?_
    rw [List.flatMap_append]
    exact parted.append_left _
  rw [kept_nodes, debris, stubs]
  simp only [List.flatMap_assoc] at each ⊢
  refine (List.Perm.flatMap_left d.units each).trans ?_
  refine (List.flatMap_append_perm d.units _ _).symm.trans (List.Perm.append_left _ ?_)
  exact (List.flatMap_append_perm d.units _ _).symm

end Design

namespace Slots

variable {α : Type}

theorem occupied_eq_size {s : Slots α} (full : ∀ slot < s.cells.size, s.contains slot = true) :
    s.occupied = s.cells.size := by
  have used : ∀ cell ∈ s.cells.toList, cell.isSome = true := by
    intro cell hcell
    obtain ⟨slot, inside, rfl⟩ := List.mem_iff_getElem.mp hcell
    have held := full slot inside
    simp only [contains, get?] at held
    simpa [Array.getElem?_eq_getElem inside] using held
  rw [occupied, values, List.length_filterMap_eq_countP]
  exact List.countP_eq_length.mpr used

end Slots

/-- Merging leaves no slot vacant and none out of reach. -/
theorem joined_full (units : List LinkUnit) :
    ∃ ids, (joined units).preorder = .ok ids ∧ ids.Nodup ∧
      ids.length = (joined units).opCount ∧
      ∀ slot < (joined units).ops.cells.size,
        (joined units).ops.contains slot = true ∧ ⟨slot⟩ ∈ ids := by
  obtain ⟨ps, -, hids, grown⟩ :=
    Tree.plantList_eq (fun t (_ : t ∈ units.flatMap LinkUnit.forest) => t.plants) .empty
  have unfolds : (joined units).Unfolds ps := ⟨hids.symm, grown.holds, grown.nodup⟩
  have size : (joined units).ops.cells.size = (ps.flatMap Placed.entries).length :=
    grown.size.trans (Nat.zero_add _)
  have slots : ((ps.flatMap Placed.entries).map (·.1.index)).Nodup := by
    have distinct := unfolds.nodup.map OpId.index_injective
    rwa [List.map_map] at distinct
  -- as many distinct slots as there are: every slot is among them
  have inside : (ps.flatMap Placed.entries).map (·.1.index) ⊆
      List.range (joined units).ops.cells.size := by
    intro slot hslot
    obtain ⟨e, he, rfl⟩ := List.mem_map.mp hslot
    exact List.mem_range.mpr (Slots.lt_size_of_get? (unfolds.holds e he))
  have all := (slots.subperm inside).perm_of_length_le
    (by rw [List.length_range, List.length_map, size])
  have reached : ∀ slot < (joined units).ops.cells.size,
      (joined units).ops.contains slot = true ∧
        ⟨slot⟩ ∈ (ps.flatMap Placed.entries).map (·.1) := by
    intro slot hslot
    obtain ⟨e, he, rfl⟩ := List.mem_map.mp (all.mem_iff.mpr (List.mem_range.mpr hslot))
    exact ⟨Slots.contains_iff.mpr ⟨_, unfolds.holds e he⟩, List.mem_map_of_mem he⟩
  refine ⟨_, LinkUnit.preorder_eq unfolds, unfolds.nodup, ?_, reached⟩
  rw [List.length_map, ← size, ← Slots.occupied_eq_size fun slot hslot => (reached slot hslot).1]
  exact (exact_joined units).symm

theorem Collected.Of.debris_eq {u : LinkUnit} {ps : List Placed} {c : Collected}
    (h : Collected.Of ps c) (hu : u.Unfolds ps) :
    c.debris = (u.debris.flatMap Tree.nodes).length := by
  have split := (u.forest_perm.flatMap_right Tree.nodes).length_eq
  have count := h.debris
  simp only [Placed.length_entries, Tree.total_size, ← LinkUnit.forest_eq hu,
    ← LinkUnit.forest_eq h.unfolds, h.forest_eq hu] at count
  simp only [LinkUnit.declarations, List.flatMap_append, List.length_append] at split
  omega

namespace Phases

variable {options : LinkOptions} {d : Design} {lexicon : Lexicon}

theorem debris_eq (p : Phases options d lexicon) (forest : ∀ u ∈ d.units, u.IsForest) :
    total (·.debris) p.collected = (d.debris.flatMap Tree.nodes).length := by
  obtain ⟨pss, hpss, hcs⟩ := p.exists_unfolding forest
  rw [Design.debris, List.flatMap_assoc]
  refine total_eq_length p.length_collected fun unit c u hc hu => ?_
  obtain ⟨ps, hps, unfolds⟩ := forall₂_getElem? hpss hu
  obtain ⟨c', hc', of⟩ := forall₂_getElem? hcs hps
  obtain rfl : c = c' := Option.some.inj (hc.symm.trans hc')
  exact of.debris_eq unfolds

theorem counts_eq (p : Phases options d lexicon) (forest : ∀ u ∈ d.units, u.IsForest) {unit : Nat}
    {u : LinkUnit} {counts : RewriteCounts} (hu : d.units[unit]? = some u)
    (hcounts : p.counts[unit]? = some counts) :
    counts.stubsErased = (u.declarations.flatMap Tree.stubs).length ∧
      counts.opsErased = ((u.declarations.flatMap Tree.stubs).flatMap Tree.nodes).length ∧
      counts.renamesApplied = (((Tree.dropStubs u.declarations).flatMap Tree.nodes).filter
        (Node.renamed p.naming.renames unit)).length := by
  obtain ⟨pss, hpss, hcs⟩ := p.exists_unfolding forest
  obtain ⟨-, -, -, each⟩ := p.rewritten_eq
  obtain ⟨ps, hps, unfolds⟩ := forall₂_getElem? hpss hu
  obtain ⟨c, hc, of⟩ := forall₂_getElem? hcs hps
  obtain ⟨counts', remap, u', -, -, hcounts', hrewrite⟩ := each unit c hc
  obtain rfl : counts = counts' := Option.some.inj (hcounts.symm.trans hcounts')
  have tallied := LinkUnit.rewrite_counts of.unfolds hrewrite
  rwa [of.forest_eq unfolds] at tallied

theorem stubs_eq (p : Phases options d lexicon) (forest : ∀ u ∈ d.units, u.IsForest) :
    total (·.stubsErased) p.counts = d.stubs.length ∧
      total (·.opsErased) p.counts = (d.stubs.flatMap Tree.nodes).length := by
  obtain ⟨-, -, same, -⟩ := p.rewritten_eq
  constructor
  · exact total_eq_length same fun unit counts u hcounts hu => (p.counts_eq forest hu hcounts).1
  · rw [Design.stubs, List.flatMap_assoc]
    exact total_eq_length same fun unit counts u hcounts hu =>
      (p.counts_eq forest hu hcounts).2.1

theorem renames_eq (p : Phases options d lexicon) (forest : ∀ u ∈ d.units, u.IsForest) :
    total (·.renamesApplied) p.counts =
      (d.kept.filter fun (unit, n) => n.renamed p.naming.renames unit).length := by
  obtain ⟨-, -, same, -⟩ := p.rewritten_eq
  rw [Design.kept_eq, List.filter_flatMap]
  refine total_eq_length (by rw [same, List.length_zipIdx]) fun unit counts e hcounts he => ?_
  obtain ⟨u, position⟩ := e
  rw [List.getElem?_zipIdx, Option.map_eq_some_iff] at he
  obtain ⟨_, hu, heq⟩ := he
  cases heq
  rw [Nat.zero_add, List.filter_map, List.length_map]
  exact (p.counts_eq forest hu hcounts).2.2

end Phases

namespace LinkUnit

theorem length_preorder {u : LinkUnit} {ids : List OpId} (forest : u.IsForest)
    (h : u.preorder = .ok ids) : ids.length = (u.forest.flatMap Tree.nodes).length := by
  obtain ⟨ps, unfolds⟩ := isForest_iff.mp forest
  obtain rfl := Except.ok.inj ((preorder_eq unfolds).symm.trans h)
  rw [List.length_map, Placed.length_entries, Tree.total_size, forest_eq unfolds]

theorem length_forest {u : LinkUnit} (forest : u.IsForest) : u.forest.length = u.body.length := by
  obtain ⟨ps, unfolds⟩ := isForest_iff.mp forest
  rw [forest_eq unfolds, ← unfolds.body, List.length_map, List.length_map]

theorem exists_reached {units : List LinkUnit} (forest : ∀ u ∈ units, u.IsForest) :
    ∃ reached, units.mapM preorder = .ok reached ∧
      reached.flatten.length = ((units.flatMap LinkUnit.forest).flatMap Tree.nodes).length := by
  obtain ⟨reached, hreached⟩ := exists_forall₂ fun u hu =>
    (forest u hu).imp fun _ found => found.1
  refine ⟨reached, mapM_eq_ok.mpr hreached, ?_⟩
  induction hreached with
  | nil => rfl
  | cons head _ ih =>
    obtain ⟨first, others⟩ := List.forall_mem_cons.mp forest
    simp only [List.flatten_cons, List.flatMap_cons, List.flatMap_append, List.length_append,
      length_preorder first head, ih others]

end LinkUnit

theorem Phases.length_moved {options : LinkOptions} {d : Design} {lexicon : Lexicon}
    (p : Phases options d lexicon) :
    ((d.definitions.map p.moved).flatMap Tree.nodes).length = d.kept.length := by
  simp only [Design.kept, List.flatMap_map, List.length_flatMap, moved, Tree.nodes_mapNodes,
    List.length_map]

/-- The accounts of a link that succeeds. Every operation that the units reach is debris, or part
of a stub, or part of a definition, and just once; the summary counts the first two, the merged
unit holds the third, and all its slots are in use and within reach. -/
theorem link_accounts {pool : WorkerPool} {options : LinkOptions} {d : Design}
    {lexicon : Lexicon} {log : Log} {linked : Linked} {summary : Summary}
    (forest : ∀ u ∈ d.units, u.IsForest)
    (h : link pool options d lexicon log = .ok linked) (success : linked.result = .ok summary) :
    ∃ (p : Phases options d lexicon) (merged : LinkUnit) (reached : List (List OpId))
      (ids : List OpId),
      linked.design.units = [merged] ∧
      d.units.mapM LinkUnit.preorder = .ok reached ∧
      reached.flatten.length =
        summary.debrisErased + total (·.opsErased) p.counts + merged.opCount ∧
      ((d.units.flatMap LinkUnit.forest).flatMap Tree.nodes).Perm
        (d.debris.flatMap Tree.nodes ++ (d.stubs.flatMap Tree.nodes ++ d.kept.map (·.2))) ∧
      merged.forest = d.definitions.map p.moved ∧
      summary.debrisErased = Tree.sizeOfList d.debris ∧
      total (·.opsErased) p.counts = Tree.sizeOfList d.stubs ∧
      summary.stubsErased = d.stubs.length ∧
      summary.declarations = d.definitions.length ∧
      summary.renamesApplied =
        (d.kept.filter fun (unit, n) => n.renamed p.naming.renames unit).length ∧
      summary.units = d.units.length ∧
      merged.preorder = .ok ids ∧ ids.Nodup ∧
      ∀ slot < merged.ops.cells.size, merged.ops.contains slot = true ∧ ⟨slot⟩ ∈ ids := by
  obtain ⟨-, h⟩ := starts_of_link h success
  rcases linkUnits_cases h with ⟨r, -, failure, -⟩ | ⟨p, hfinish⟩
  · rw [failure] at success
    cases success
  obtain ⟨-, hdesign, -, -, rfl, -⟩ := finish_phases hfinish success
  obtain ⟨-, same, -, -⟩ := p.rewritten_eq
  obtain ⟨stubs, opsErased⟩ := p.stubs_eq forest
  obtain ⟨reached, hreached, entered⟩ := LinkUnit.exists_reached forest
  obtain ⟨ids, hids, nodup, counted, full⟩ := joined_full p.rewritten.units
  obtain ⟨isForest, trees⟩ := joined_forest p.rewritten.units
  rw [p.forest_eq forest] at trees
  have held : (joined p.rewritten.units).opCount = d.kept.length := by
    rw [← counted, LinkUnit.length_preorder isForest hids, trees, p.length_moved]
  have declared : (joined p.rewritten.units).body.length = d.definitions.length := by
    rw [← LinkUnit.length_forest isForest, trees, List.length_map]
  have debris : (p.summary (joined p.rewritten.units).body.length).debrisErased =
      (d.debris.flatMap Tree.nodes).length := p.debris_eq forest
  have parted := d.nodes_perm.length_eq
  simp only [List.length_append, List.length_map] at parted
  refine ⟨p, joined p.rewritten.units, reached, ids, by rw [hdesign], hreached, ?_,
    d.nodes_perm, trees, ?_, ?_, stubs, declared, p.renames_eq forest, same, hids, nodup, full⟩
  · omega
  · rw [debris, Tree.sizeOfList_eq]
  · rw [opsErased, Tree.sizeOfList_eq]

/-- In the mux design nothing is debris and the one stub holds nothing, so six of its seven
operations are in the merged unit. -/
theorem link_accounts_mux :
    ∃ linked summary merged, link .granted .standard muxDesign muxNames .empty = .ok linked ∧
      linked.result = .ok summary ∧ linked.design.units = [merged] ∧
      summary.debrisErased = 0 ∧ summary.stubsErased = 1 ∧ summary.declarations = 5 ∧
      merged.opCount = 6 := by
  obtain ⟨linked, summary, h, success⟩ := Design.links_iff.mp muxDesign_links
  obtain ⟨p, merged, reached, ids, hunits, hreached, sum, -, -, debris, opsErased, stubs,
    declarations, -⟩ := link_accounts muxDesign_wellFormed.forest h success
  have reaches : muxDesign.units.mapM LinkUnit.preorder =
      .ok [[⟨0⟩, ⟨1⟩, ⟨3⟩, ⟨2⟩], [⟨0⟩, ⟨1⟩, ⟨2⟩]] := by decide
  obtain rfl := Except.ok.inj (reaches.symm.trans hreached)
  rw [show Tree.sizeOfList muxDesign.debris = 0 by decide] at debris
  rw [show Tree.sizeOfList muxDesign.stubs = 1 by decide] at opsErased
  refine ⟨linked, summary, merged, h, success, hunits, debris, stubs, declarations, ?_⟩
  rw [debris, opsErased] at sum
  have seven : 7 = 0 + 1 + merged.opCount := sum
  omega

end Linkage
