import Linkage.Proofs.Coherence
import Linkage.Proofs.Counterparts
import Linkage.Proofs.TyImages
/-!
Rewriting the units of a design under any renaming, also one that hands a name on to another name
that is renamed itself. A unit keeps what is reached without coming through a stub, in its slots and
in its order, under one substitution; and if no new name is renamed in its turn, there is nothing
left to rewrite.
-/
namespace Linkage

namespace LinkUnit

def stubAt (u : LinkUnit) (id : OpId) : Bool := (u.ops.get? id.index).any (·.kind.isStub)

/-- An operation that is reached from the body, is no stub and is not below one on this way. -/
inductive Survives (u : LinkUnit) : OpId → Op → Prop
  | top {id : OpId} {op : Op} (root : id ∈ u.body) (held : u.ops.get? id.index = some op)
      (plain : op.kind.isStub = false) : Survives u id op
  | nested {id child : OpId} {op op' : Op} (h : Survives u id op)
      (inside : child ∈ op.regions.flatten) (held : u.ops.get? child.index = some op')
      (plain : op'.kind.isStub = false) : Survives u child op'

def restate (u : LinkUnit) (s : Name → Name) (f : TyId → TyId) (op : Op) : Op :=
  { op.toNode.substitute s f with regions := op.regions.map (·.filter fun id => !u.stubAt id) }

/-- A unit under a substitution. The outermost stubs are gone with all that is nested in them, what
is reached otherwise is in its slot under the substitution, and what is not reached is as it was. -/
structure Rewritten (u u' : LinkUnit) (s : Name → Name) (f : TyId → TyId) : Prop where
  id : u'.id = u.id
  tag : u'.tag = u.tag
  span : u'.span = u.span
  body : u'.body = u.body.filter fun id => !u.stubAt id
  size : u'.ops.cells.size = u.ops.cells.size
  kept : ∀ id op, u.Survives id op → u'.ops.get? id.index = some (u.restate s f op)
  erased : ∀ id op, u.Reaches id op → ¬ u.Survives id op → u'.ops.get? id.index = none
  untouched : ∀ id, (∀ op, ¬ u.Reaches id op) → u'.ops.get? id.index = u.ops.get? id.index
  counted : u'.ops.live + u.ops.occupied = u.ops.live + u'.ops.occupied

variable {u : LinkUnit} {s : Name → Name} {f : TyId → TyId} {id : OpId} {op : Op}

theorem Survives.held (h : u.Survives id op) : u.ops.get? id.index = some op := by
  cases h with
  | top _ held _ => exact held
  | nested _ _ held _ => exact held

theorem Survives.plain (h : u.Survives id op) : op.kind.isStub = false := by
  cases h with
  | top _ _ plain => exact plain
  | nested _ _ _ plain => exact plain

theorem Survives.reaches (h : u.Survives id op) : u.Reaches id op := by
  induction h with
  | top root held _ => exact ⟨held, _, root, .root⟩
  | nested _ inside held _ ih =>
    obtain ⟨above, root, hroot, below⟩ := ih
    exact ⟨held, root, hroot, below.nested above inside⟩

theorem stubAt_eq (held : u.ops.get? id.index = some op) : u.stubAt id = op.kind.isStub := by
  simp only [stubAt, held, Option.any_some]

end LinkUnit

namespace Placed

mutual

def restated (s : Name → Name) (f : TyId → TyId) : Placed → List Placed
  | .node id root regions =>
    if root.kind.isStub then []
    else [.node id (root.substitute s f) (restatedOfRegions s f regions)]

def restatedOfList (s : Name → Name) (f : TyId → TyId) : List Placed → List Placed
  | [] => []
  | p :: rest => restated s f p ++ restatedOfList s f rest

def restatedOfRegions (s : Name → Name) (f : TyId → TyId) : List (List Placed) → List (List Placed)
  | [] => []
  | region :: rest => restatedOfList s f region :: restatedOfRegions s f rest

end

variable {s : Name → Name} {f : TyId → TyId}

theorem restatedOfList_eq_flatMap (ps : List Placed) :
    restatedOfList s f ps = ps.flatMap (restated s f) := by
  induction ps with
  | nil => rfl
  | cons p rest ih => simp only [restatedOfList, ih, List.flatMap_cons]

theorem restated_node (id : OpId) (root : Node) (regions : List (List Placed)) :
    (node id root regions).restated s f =
      if root.kind.isStub then []
      else [.node id (root.substitute s f) (regions.map (·.flatMap (restated s f)))] := by
  have nested : restatedOfRegions s f regions = regions.map (·.flatMap (restated s f)) := by
    induction regions with
    | nil => rfl
    | cons region rest ih =>
      simp only [restatedOfRegions, restatedOfList_eq_flatMap, ih, List.map_cons]
  rw [restated, nested]

section

variable {renames : Renaming} {unit : Nat} {remap : TyRemap}

def Restates (renames : Renaming) (unit : Nat) (remap : TyRemap) (p : Placed) : Prop :=
  ∀ counts, (p.sweep (RewriteCounts.visit renames unit remap) counts).1.toList =
    p.restated (renames.apply unit) remap.apply

theorem sweepList_restates {ps : List Placed} (each : ∀ p ∈ ps, Restates renames unit remap p)
    (counts : RewriteCounts) :
    (sweepList (RewriteCounts.visit renames unit remap) ps counts).1 =
      ps.flatMap (restated (renames.apply unit) remap.apply) := by
  induction ps generalizing counts with
  | nil => rfl
  | cons p rest ih =>
    simp only [sweepList, each p List.mem_cons_self counts, List.flatMap_cons,
      ih fun q hq => each q (List.mem_cons_of_mem p hq)]

theorem sweepRegions_restates {regions : List (List Placed)}
    (each : ∀ region ∈ regions, ∀ p ∈ region, Restates renames unit remap p)
    (counts : RewriteCounts) :
    (sweepRegions (RewriteCounts.visit renames unit remap) regions counts).1 =
      regions.map (·.flatMap (restated (renames.apply unit) remap.apply)) := by
  induction regions generalizing counts with
  | nil => rfl
  | cons region rest ih =>
    simp only [sweepRegions, List.map_cons, sweepList_restates (each region List.mem_cons_self),
      ih fun r hr => each r (List.mem_cons_of_mem region hr)]

theorem restates (p : Placed) : Restates renames unit remap p := by
  induction p with
  | node id root regions ih =>
    intro counts
    rw [restated_node]
    by_cases stub : root.kind.isStub = true
    · have erases : RewriteCounts.visit renames unit remap id (node id root regions).op counts =
          (.erase, root, { counts with stubsErased := counts.stubsErased + 1 }) := if_pos stub
      simp only [sweep, erases, if_pos stub, Option.toList_none]
    · obtain ⟨counts', descends⟩ : ∃ counts',
          RewriteCounts.visit renames unit remap id (node id root regions).op counts =
            (.descend, root.rewrite renames unit remap, counts') := ⟨_, if_neg stub⟩
      simp only [sweep, descends, sweepRegions_restates ih, if_neg stub, Node.rewrite_eq,
        Option.toList_some]

def Settled (renames : Renaming) (unit : Nat) (remap : TyRemap) (op : Op) : Prop :=
  op.kind.isStub = false ∧ op.kind.declared?.bind (renames.get? unit) = none ∧
    op.toNode.substitute (renames.apply unit) remap.apply = op.toNode

theorem sweepList_settled {ps : List Placed} {counts : RewriteCounts}
    (each : ∀ p ∈ ps, p.sweep (RewriteCounts.visit renames unit remap) counts = (some p, counts)) :
    sweepList (RewriteCounts.visit renames unit remap) ps counts = (ps, counts) := by
  induction ps with
  | nil => rfl
  | cons p rest ih =>
    simp only [sweepList, each p List.mem_cons_self, Option.toList_some, List.singleton_append,
      ih fun q hq => each q (List.mem_cons_of_mem p hq)]

theorem sweepRegions_settled {regions : List (List Placed)} {counts : RewriteCounts}
    (each : ∀ region ∈ regions, ∀ p ∈ region,
      p.sweep (RewriteCounts.visit renames unit remap) counts = (some p, counts)) :
    sweepRegions (RewriteCounts.visit renames unit remap) regions counts = (regions, counts) := by
  induction regions with
  | nil => rfl
  | cons region rest ih =>
    simp only [sweepRegions, sweepList_settled (each region List.mem_cons_self),
      ih fun r hr => each r (List.mem_cons_of_mem region hr)]

theorem sweep_settled {p : Placed} (settled : ∀ e ∈ p.entries, Settled renames unit remap e.2)
    (counts : RewriteCounts) :
    p.sweep (RewriteCounts.visit renames unit remap) counts = (some p, counts) := by
  induction p with
  | node id root regions ih =>
    rw [entries_node] at settled
    obtain ⟨⟨plain, unnamed, fixed⟩, nested⟩ := List.forall_mem_cons.mp settled
    have descends : RewriteCounts.visit renames unit remap id (node id root regions).op counts =
        (.descend, root, counts) := by
      simp only [RewriteCounts.visit, plain, unnamed, Node.rewrite_eq, fixed, Option.isSome_none,
        Bool.false_eq_true, if_false]
      rfl
    have inside := sweepRegions_settled fun region hregion p hp =>
      ih region hregion p hp fun e he => nested e (List.mem_flatMap.mpr
        ⟨p, List.mem_flatten.mpr ⟨region, hregion, hp⟩, he⟩)
    simp only [sweep, descends, inside]

end

variable {u : LinkUnit}

theorem map_id_restated {ps : List Placed} (holds : ∀ p ∈ ps, u.ops.Holds p.entries) :
    (ps.flatMap (restated s f)).map id = (ps.map id).filter fun id => !u.stubAt id := by
  induction ps with
  | nil => rfl
  | cons p rest ih =>
    obtain ⟨hp, hrest⟩ := List.forall_mem_cons.mp holds
    have stub := LinkUnit.stubAt_eq (hp _ p.mem_entries)
    obtain ⟨i, root, regions⟩ := p
    rw [List.flatMap_cons, List.map_append, ih hrest, restated_node, List.map_cons,
      List.filter_cons, stub]
    cases hroot : root.kind.isStub <;> simp [op, hroot, Placed.id]

theorem survives_of_restated {p : Placed} (holds : u.ops.Holds p.entries)
    (above : p.op.kind.isStub = false → u.Survives p.id p.op) :
    ∀ e ∈ (p.restated s f).flatMap entries,
      ∃ op, u.Survives e.1 op ∧ e.2 = u.restate s f op := by
  induction p with
  | node i root regions ih =>
    rw [restated_node]
    split
    · exact fun e he => absurd he List.not_mem_nil
    · next plain =>
      have survives := above (Bool.eq_false_iff.mpr plain)
      rw [entries_node] at holds
      obtain ⟨-, hnested⟩ := List.forall_mem_cons.mp holds
      have nested : ∀ region ∈ regions, ∀ q ∈ region, u.ops.Holds q.entries :=
        fun region hregion q hq =>
          Slots.holds_of_mem hnested (List.mem_flatten.mpr ⟨region, hregion, hq⟩)
      rw [List.flatMap_singleton, entries_node]
      refine List.forall_mem_cons.mpr ⟨⟨_, survives, ?_⟩, fun e he => ?_⟩
      · have regions_eq : (regions.map (·.flatMap (restated s f))).map (·.map id) =
            (regions.map (·.map id)).map (·.filter fun id => !u.stubAt id) := by
          rw [List.map_map, List.map_map]
          exact List.map_congr_left fun region hregion => map_id_restated (nested region hregion)
        simp only [op, LinkUnit.restate, regions_eq]
      · obtain ⟨q', hq', he⟩ := List.mem_flatMap.mp he
        obtain ⟨_, hregion', hq'⟩ := List.mem_flatten.mp hq'
        obtain ⟨region, hregion, rfl⟩ := List.mem_map.mp hregion'
        obtain ⟨q, hq, hq'⟩ := List.mem_flatMap.mp hq'
        have hq_holds := nested region hregion q hq
        refine ih region hregion q hq hq_holds (fun plain => ?_) e
          (List.mem_flatMap.mpr ⟨q', hq', he⟩)
        refine survives.nested ?_ (hq_holds _ q.mem_entries) plain
        exact List.mem_flatten.mpr ⟨_, List.mem_map_of_mem hregion, List.mem_map_of_mem hq⟩

end Placed

namespace LinkUnit

variable {u : LinkUnit} {ps : List Placed} {s : Name → Name} {f : TyId → TyId}

/-- What is left of a forest are the operations that survive, under the substitution. -/
theorem Unfolds.mem_restated_iff (h : u.Unfolds ps) {id : OpId} {op' : Op} :
    (id, op') ∈ (ps.flatMap (Placed.restated s f)).flatMap Placed.entries ↔
      ∃ op, u.Survives id op ∧ op' = u.restate s f op := by
  have sound : ∀ e ∈ (ps.flatMap (Placed.restated s f)).flatMap Placed.entries,
      ∃ op, u.Survives e.1 op ∧ e.2 = u.restate s f op := by
    intro e he
    obtain ⟨q, hq, he⟩ := List.mem_flatMap.mp he
    obtain ⟨p, hp, hq⟩ := List.mem_flatMap.mp hq
    refine Placed.survives_of_restated (h.holds_of_mem hp) (fun plain => ?_) e
      (List.mem_flatMap.mpr ⟨q, hq, he⟩)
    exact .top (h.body ▸ List.mem_map_of_mem hp) (h.held hp) plain
  -- with its slot the operation is determined, so it is enough to find the slot
  have only : ∀ {id op}, u.ops.get? id.index = some op →
      id ∈ ((ps.flatMap (Placed.restated s f)).flatMap Placed.entries).map (·.1) →
      (id, u.restate s f op) ∈ (ps.flatMap (Placed.restated s f)).flatMap Placed.entries := by
    intro id op held hid
    obtain ⟨⟨_, op'⟩, he, rfl⟩ := List.mem_map.mp hid
    obtain ⟨op₀, survives, rfl⟩ := sound _ he
    obtain rfl := Option.some.inj (survives.held.symm.trans held)
    exact he
  refine ⟨fun he => sound _ he, ?_⟩
  rintro ⟨op, survives, rfl⟩
  induction survives with
  | @top id op root held plain =>
    refine only held ?_
    have kept : id ∈ (ps.flatMap (Placed.restated s f)).map Placed.id := by
      rw [Placed.map_id_restated fun p hp => h.holds_of_mem hp, h.body, List.mem_filter]
      exact ⟨root, by rw [stubAt_eq held, plain]; rfl⟩
    obtain ⟨q, hq, rfl⟩ := List.mem_map.mp kept
    exact List.mem_map.mpr ⟨_, List.mem_flatMap.mpr ⟨q, hq, q.mem_entries⟩, rfl⟩
  | @nested id child op op' _ inside held plain ih =>
    refine only held ?_
    obtain ⟨q, hq, he⟩ := List.mem_flatMap.mp ih
    have listed : child ∈ (u.restate s f op).regions.flatten := by
      obtain ⟨region, hregion, hchild⟩ := List.mem_flatten.mp inside
      refine List.mem_flatten.mpr ⟨_, List.mem_map_of_mem hregion, List.mem_filter.mpr ⟨hchild, ?_⟩⟩
      rw [stubAt_eq held, plain]
      rfl
    obtain ⟨e, he, rfl⟩ := List.mem_map.mp (Placed.mem_ids_of_child he listed)
    exact List.mem_map.mpr ⟨e, List.mem_flatMap.mpr ⟨q, hq, he⟩, rfl⟩

variable {unit : Nat} {renames : Renaming} {remap : TyRemap}

/-- Rewriting a forest leaves what survives, and in its slots. -/
theorem Unfolds.rewrite (h : u.Unfolds ps) (covered : u.Covered) (unit : Nat) (renames : Renaming)
    (remap : TyRemap) :
    ∃ counts u', u.rewrite unit renames remap = .ok (counts, u') ∧
      u.Rewritten u' (renames.apply unit) remap.apply ∧
      u'.Unfolds (ps.flatMap (Placed.restated (renames.apply unit) remap.apply)) ∧ u'.Covered := by
  obtain ⟨erased, u', hsweep, ops, rfl, swept⟩ :=
    covered.exists_sweep h (RewriteCounts.visit renames unit remap) ⟨0, 0, 0⟩
  have spent := LinkUnit.spent_sweep hsweep
  have enough := (covered_iff h).mp covered
  have live := swept.live
  have unfolds := swept.unfolds h
  rw [Placed.sweepList_restates fun p _ => p.restates] at hsweep swept unfolds live
  refine ⟨_, _, by rw [LinkUnit.rewrite, hsweep, ok_bind]; rfl, ?_, unfolds, ?_⟩
  · refine ⟨rfl, rfl, rfl, ?_, swept.size, ?_, ?_, ?_, spent.counted⟩
    · rw [← h.body]
      exact Placed.map_id_restated fun p hp => h.holds_of_mem hp
    · exact fun id op survives => swept.holds _ (h.mem_restated_iff.mpr ⟨op, survives, rfl⟩)
    · intro id op reached gone
      refine swept.vacant id (List.mem_map.mpr ⟨_, h.reaches_iff.mp reached, rfl⟩) fun left => ?_
      obtain ⟨⟨_, op'⟩, he, rfl⟩ := List.mem_map.mp left
      obtain ⟨op₀, survives, -⟩ := h.mem_restated_iff.mp he
      obtain rfl := Option.some.inj (survives.held.symm.trans reached.1)
      exact gone survives
    · intro id apart
      refine swept.outside id fun hid => ?_
      obtain ⟨⟨_, op⟩, he, rfl⟩ := List.mem_map.mp hid
      exact apart op (h.reaches_iff.mpr he)
  · rw [covered_iff unfolds]
    simp only
    omega

theorem Unfolds.rewrite_settled (h : u.Unfolds ps) (covered : u.Covered)
    (settled : ∀ id op, u.Reaches id op → Placed.Settled renames unit remap op) :
    u.rewrite unit renames remap = .ok (⟨0, 0, 0⟩, u) := by
  obtain ⟨erased, u', hsweep, ops, rfl, swept⟩ :=
    covered.exists_sweep h (RewriteCounts.visit renames unit remap) ⟨0, 0, 0⟩
  rw [Placed.sweepList_settled fun p hp => Placed.sweep_settled (fun e he =>
    settled e.1 e.2 (h.reaches_iff.mpr (List.mem_flatMap.mpr ⟨p, hp, he⟩))) _] at hsweep swept
  have nothing : erased = 0 := by simpa using swept.count
  obtain rfl : ops = u.ops :=
    (LinkUnit.spent_sweep hsweep).eq swept.size (swept.get?_eq h.holds)
  rw [LinkUnit.rewrite, hsweep, ok_bind, nothing, h.body]
  rfl

end LinkUnit

/-- New names are not renamed in their turn. -/
def Renaming.Final (r : Renaming) (unit : Nat) : Prop :=
  ∀ name new, r.get? unit name = some new → r.get? unit new = none

theorem Renaming.final_of_entries {r : Renaming} {unit : Nat}
    (each : ∀ entry ∈ r.entries, entry.1.unit = unit → r.get? unit entry.2 = none) :
    r.Final unit := by
  intro name new found
  obtain ⟨before, after, heq, -⟩ := List.lookup_eq_some_iff.mp found
  exact each (⟨unit, name⟩, new) (heq ▸ List.mem_append_right _ List.mem_cons_self) rfl

namespace Renaming.Final

variable {r : Renaming} {unit : Nat}

theorem get?_apply (final : r.Final unit) (name : Name) :
    r.get? unit (r.apply unit name) = none := by
  unfold Renaming.apply
  cases found : r.get? unit name with
  | none => exact found
  | some new => exact final name new found

theorem apply_apply (final : r.Final unit) (name : Name) :
    r.apply unit (r.apply unit name) = r.apply unit name :=
  Renaming.apply_eq_of_none (final.get?_apply name)

/-- The image of a type that was there has its image already, and any other type is in no table. -/
theorem remap_remap (final : r.Final unit) {s s' : TyStore} {remap : TyRemap} (grows : s.Grows s')
    (images : ∀ id, id.index < s.size → s.Image (r.get? unit) s' id (remap.apply id))
    (keys : ∀ pair ∈ remap.pairs, pair.1.index < s.size) {id : TyId} (hid : id.index < s.size) :
    remap.apply (remap.apply id) = remap.apply id := by
  obtain ⟨t, -, ht, -⟩ := images id hid
  by_cases old : (remap.apply id).index < s.size
  · obtain ⟨t', ht', -, same⟩ := images (remap.apply id) old
    have before := (TyStore.denotes_iff_tree.mpr ht').extend grows.types
    obtain rfl := before.unique (TyStore.denotes_iff_tree.mpr ht)
    refine same.mpr fun name hname => ?_
    rw [TyTree.classes_rename] at hname
    obtain ⟨name, -, rfl⟩ := List.mem_map.mp hname
    exact final.apply_apply name
  · have absent : remap.pairs.lookup (remap.apply id) = none :=
      List.lookup_eq_none_iff.mpr fun pair hpair => bne_iff_ne.mpr fun same =>
        old (same ▸ keys pair hpair)
    rw [TyRemap.apply, absent, Option.getD_none]

theorem declared?_substitute (final : r.Final unit) (n : Node) (f : TyId → TyId) :
    ∀ name ∈ (n.substitute (r.apply unit) f).kind.declared?, r.get? unit name = none := by
  intro name hname
  rw [Node.declared?_substitute, Option.mem_map] at hname
  obtain ⟨old, -, rfl⟩ := hname
  exact final.get?_apply old

theorem mentions_substitute (final : r.Final unit) {s s' : TyStore} {remap : TyRemap}
    (images : ∀ id, id.index < s.size → s.Image (r.get? unit) s' id (remap.apply id)) {n : Node}
    (stored : ∀ ty ∈ n.types, ty.index < s.size) :
    ∃ names, (n.substitute (r.apply unit) remap.apply).mentions s' = .ok names ∧
      ∀ name ∈ names, r.get? unit name = none := by
  obtain ⟨ts, hts⟩ := exists_forall₂ fun ty hty => images ty (stored ty hty)
  have before : List.Forall₂ s.Denotes n.types ts :=
    hts.imp fun _ _ image => TyStore.denotes_iff_tree.mpr image.1
  have after : List.Forall₂ s'.Denotes (n.types.map remap.apply)
      (ts.map (TyTree.rename (r.apply unit))) := by
    rw [List.forall₂_map_left_iff, List.forall₂_map_right_iff]
    exact hts.imp fun _ _ image => TyStore.denotes_iff_tree.mpr image.2.1
  obtain ⟨names, -, renamed⟩ := Node.mentions_substitute before after
  refine ⟨_, renamed, fun name hname => ?_⟩
  obtain ⟨old, -, rfl⟩ := List.mem_map.mp hname
  exact final.get?_apply old

end Renaming.Final

/-- A renaming that a design is rewritten with reaches every name of every unit once. -/
theorem rewrite_substitutes {d : Design} (forest : ∀ u ∈ d.units, u.IsForest)
    (covered : d.Covered)
    (typed : ∀ u ∈ d.units, ∀ id op, u.Reaches id op → ∀ ty ∈ op.types, ty.index < d.types.size)
    (closed : d.types.Closed) (acyclic : d.types.Acyclic) (renames : Renaming) :
    ∃ remaps counts d', d.rewrite renames = .ok (remaps, counts, d') ∧
      d.types.toList <+: d'.types.toList ∧ remaps.length = d.units.length ∧
      d'.units.length = d.units.length ∧
      ∀ (unit : Nat) (u u' : LinkUnit) (remap : TyRemap), d.units[unit]? = some u →
        d'.units[unit]? = some u' → remaps[unit]? = some remap →
        u.Rewritten u' (renames.apply unit) remap.apply ∧ u'.IsForest ∧
        (∀ id, id.index < d.types.size →
          d.types.Image (renames.get? unit) d'.types id (remap.apply id)) ∧
        (renames.Final unit →
          (∀ id op, u'.Reaches id op → (∀ name ∈ op.kind.declared?, renames.get? unit name = none) ∧
            ∃ names, op.mentions d'.types = .ok names ∧
              ∀ name ∈ names, renames.get? unit name = none) ∧
          u'.rewrite unit renames remap = .ok (⟨0, 0, 0⟩, u')) := by
  obtain ⟨remaps, types, built, length, grows, tables⟩ :=
    TyRemap.exists_images closed acyclic d.units.length renames
  have goesThrough : ∀ e ∈ (d.units.zip remaps).zipIdx, ∃ result : RewriteCounts × LinkUnit,
      e.1.1.rewrite e.2 renames e.1.2 = .ok result := by
    rintro ⟨⟨u, remap⟩, unit⟩ he
    have hu := (List.of_mem_zip (List.mem_of_getElem? (List.mem_zipIdx_iff_getElem?.mp he))).1
    obtain ⟨ps, hps⟩ := LinkUnit.isForest_iff.mp (forest u hu)
    obtain ⟨counts, u', hu', -⟩ := hps.rewrite (covered u hu) unit renames remap
    exact ⟨_, hu'⟩
  obtain ⟨results, hresults⟩ := exists_forall₂ goesThrough
  have count : results.length = d.units.length := by
    rw [← hresults.length_eq, List.length_zipIdx, List.length_zip, length, Nat.min_self]
  refine ⟨remaps, results.map (·.1), ⟨types, results.map (·.2)⟩, ?_,
    TyStore.extends_iff.mp grows.types, length, by rw [List.length_map, count], ?_⟩
  · refine bind_eq_ok.mpr ⟨(remaps, types), built, ?_⟩
    exact bind_eq_ok.mpr ⟨results, mapM_eq_ok.mpr hresults, rfl⟩
  intro unit u u' remap hu hu' hremap
  obtain ⟨images, keys, -⟩ := tables unit remap hremap
  have zipped : (d.units.zip remaps)[unit]? = some (u, remap) :=
    List.getElem?_zip_eq_some.mpr ⟨hu, hremap⟩
  have paired : (d.units.zip remaps).zipIdx[unit]? = some ((u, remap), unit) := by
    simp [List.getElem?_zipIdx, zipped]
  obtain ⟨⟨counts, v⟩, hresult, hrewrite⟩ := forall₂_getElem? hresults paired
  obtain rfl : v = u' := by
    rw [List.getElem?_map, hresult] at hu'
    exact Option.some.inj hu'
  have hmem := List.mem_of_getElem? hu
  obtain ⟨ps, hps⟩ := LinkUnit.isForest_iff.mp (forest u hmem)
  obtain ⟨_, _, again, rewritten, unfolds, covered'⟩ :=
    hps.rewrite (covered u hmem) unit renames remap
  obtain ⟨-, rfl⟩ := Prod.mk.inj (Except.ok.inj (hrewrite.symm.trans again))
  refine ⟨rewritten, LinkUnit.isForest_iff.mpr ⟨_, unfolds⟩, images, fun final => ?_⟩
  -- what is reached now survived, so it is the substitute of an operation with types of the store
  have origin : ∀ id op', v.Reaches id op' → ∃ op, op.kind.isStub = false ∧
      (∀ ty ∈ op.types, ty.index < d.types.size) ∧
      op' = u.restate (renames.apply unit) remap.apply op := by
    intro id op' reached
    obtain ⟨op, survives, same⟩ := hps.mem_restated_iff.mp (unfolds.reaches_iff.mp reached)
    exact ⟨op, survives.plain, typed u hmem id op survives.reaches, same⟩
  refine ⟨fun id op' reached => ?_, unfolds.rewrite_settled covered' fun id op' reached => ?_⟩
  · obtain ⟨op, -, stored, rfl⟩ := origin id op' reached
    exact ⟨final.declared?_substitute op.toNode remap.apply,
      final.mentions_substitute images stored⟩
  · obtain ⟨op, plain, stored, rfl⟩ := origin id op' reached
    have unnamed := final.declared?_substitute op.toNode remap.apply
    refine ⟨(Node.isStub_substitute _ _ _).trans plain, Option.bind_eq_none_iff.mpr unnamed, ?_⟩
    exact Node.substitute_substitute (fun name _ => final.apply_apply name)
      fun ty hty => final.remap_remap grows images keys (stored ty hty)

/-- In the first unit the module and the class swap their names, in the second one the class is
given a new one. -/
def muxSwap : Renaming := ⟨[(⟨0, ⟨0⟩⟩, ⟨2⟩), (⟨0, ⟨2⟩⟩, ⟨0⟩), (⟨1, ⟨2⟩⟩, ⟨3⟩)]⟩

/-- Both units are rewritten, and for the second one this is the end of it. -/
theorem rewrite_substitutes_mux :
    ¬ muxSwap.Final 0 ∧ muxSwap.Final 1 ∧ ∃ remaps counts d' first second table,
      muxDesign.rewrite muxSwap = .ok (remaps, counts, d') ∧ d'.units = [first, second] ∧
      remaps[1]? = some table ∧ (∀ u ∈ d'.units, u.IsForest) ∧
      second.rewrite 1 muxSwap table = .ok (⟨0, 0, 0⟩, second) := by
  obtain ⟨forest, typed, closed, acyclic, -⟩ := muxDesign_wellFormed
  have stored : ∀ u ∈ muxDesign.units, ∀ id op, u.Reaches id op →
      ∀ ty ∈ op.types, ty.index < muxDesign.types.size := by
    intro u hu id op reached
    obtain ⟨ps, hps⟩ := LinkUnit.isForest_iff.mp (forest u hu)
    exact hps.forall_nodes_iff.mp (typed u hu) id op reached
  have final : muxSwap.Final 1 := Renaming.final_of_entries (by decide)
  obtain ⟨remaps, counts, d', h, -, length, count, each⟩ :=
    rewrite_substitutes forest (by decide) stored closed acyclic muxSwap
  obtain ⟨first, second, hunits⟩ : ∃ u v, d'.units = [u, v] := List.length_eq_two.mp count
  obtain ⟨before, table, htables⟩ : ∃ m n, remaps = [m, n] := List.length_eq_two.mp length
  have one := each 0 _ first before rfl (by rw [hunits]; rfl) (by rw [htables]; rfl)
  have two := each 1 _ second table rfl (by rw [hunits]; rfl) (by rw [htables]; rfl)
  refine ⟨fun absurd => ?_, final, remaps, counts, d', first, second, table, h, hunits,
    by rw [htables]; rfl, ?_, (two.2.2.2 final).2⟩
  · have renamed := absurd ⟨0⟩ ⟨2⟩ rfl
    cases renamed
  · rw [hunits]
    simpa using ⟨one.2.1, two.2.1⟩

end Linkage
