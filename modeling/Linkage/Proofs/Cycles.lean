import Linkage.Proofs.Counters
import Linkage.Proofs.Outcomes
import Linkage.Proofs.Remnants
import Mathlib.Data.Finset.Card
/-!
Passes over operations that may contain each other in any way, shared, in cycles or missing. A sweep
comes to an operation again, but while it is inside one that one contains nothing: on the way down
there are fewer and fewer operations that contain some, and nothing that the sweep does on its way
back makes more of them than there were. Taking an operation out leaves fewer at every step.
-/
namespace Linkage

namespace Slots

variable {ops ops' : Slots Op} {slot : Nat} {op : Op} {P : Node → Prop}

def nests (ops : Slots Op) (slot : Nat) : Bool :=
  (ops.get? slot).any fun op => !op.regions.isEmpty

def nesting (ops : Slots Op) : Finset Nat :=
  (Finset.range ops.cells.size).filter fun slot => ops.nests slot

theorem mem_nesting :
    slot ∈ ops.nesting ↔ ∃ op, ops.get? slot = some op ∧ op.regions ≠ [] := by
  have holds : ops.nests slot = true ↔ ∃ op, ops.get? slot = some op ∧ op.regions ≠ [] := by
    simp [nests, Option.any_eq_true]
  rw [nesting, Finset.mem_filter, Finset.mem_range, holds, and_iff_right_iff_imp]
  rintro ⟨op, hop, -⟩
  exact lt_size_of_get? hop

theorem card_nesting_le (ops : Slots Op) : ops.nesting.card ≤ ops.cells.size :=
  (Finset.card_filter_le _ _).trans_eq (Finset.card_range _)

theorem Within.nesting_subset (h : ops'.Within ops) : ops'.nesting ⊆ ops.nesting := by
  intro slot hslot
  obtain ⟨op, hop, filled⟩ := mem_nesting.mp hslot
  exact mem_nesting.mpr ⟨op, h slot op hop, filled⟩

theorem nesting_put_subset {slots : Finset Nat} (h : ops.nesting ⊆ slots)
    (filled : op.regions ≠ [] → slot ∈ slots) : (ops.put slot op).nesting ⊆ slots := by
  intro other hother
  obtain ⟨found, hfound, regions⟩ := mem_nesting.mp hother
  rw [get?_put] at hfound
  split at hfound
  · next here =>
    cases hfound
    exact here.1 ▸ filled regions
  · exact h (mem_nesting.mpr ⟨found, hfound, regions⟩)

theorem not_mem_nesting_put (bare : op.regions = []) : slot ∉ (ops.put slot op).nesting := by
  intro hslot
  obtain ⟨found, hfound, regions⟩ := mem_nesting.mp hslot
  rw [get?_put] at hfound
  split at hfound
  · cases hfound
    exact regions bare
  · next vacant => exact vacant ⟨rfl, contains_iff.mpr ⟨found, hfound⟩⟩

def Every (P : Node → Prop) (ops : Slots Op) : Prop :=
  ∀ slot op, ops.get? slot = some op → P op.toNode

theorem Every.within (h : ops.Every P) (within : ops'.Within ops) : ops'.Every P :=
  fun slot op hop => h slot op (within slot op hop)

theorem Every.put (h : ops.Every P) (holds : P op.toNode) : (ops.put slot op).Every P := by
  intro other found hfound
  rw [get?_put] at hfound
  split at hfound
  · cases hfound
    exact holds
  · exact h other found hfound

/-- What stops a pass over slots: one that is meant to hold an operation and is vacant, or more
operations than are counted. -/
inductive Stops (ops : Slots Op) : Fault → Prop
  | vacant (slot : Nat) : Stops ops (.vacant slot)
  | uncounted (short : ops.live < ops.occupied) : Stops ops .countUnderflow

theorem Spent.stops (h : ops.Spent ops') {fault : Fault} (stops : ops'.Stops fault) :
    ops.Stops fault := by
  cases stops with
  | vacant slot => exact .vacant slot
  | uncounted short =>
    have := h.counted
    exact .uncounted (by omega)

theorem get_ends (ops : Slots Op) (slot : Nat) :
    Ends (fun op => ops.get? slot = some op) ops.Stops (ops.get slot) := by
  unfold get
  split
  · next h => exact h
  · exact .vacant slot

theorem prune_stops (ops : Slots Op) (id : OpId) :
    Ends (fun out => out.2.Within ops ∧ ops.Spent out.2) ops.Stops (ops.prune id) := by
  cases hprune : ops.prune id with
  | ok out => exact ⟨within_of_prune hprune, spent_of_prune hprune⟩
  | error fault =>
    rw [prune_eq, settle] at hprune
    split at hprune
    · cases hprune
    · next short =>
      cases hprune
      exact .uncounted (by omega)

end Slots

namespace Sweep

variable {σ : Type} {visit : Visitor σ} {P : Node → Prop}

/-- A sweep by a visitor that keeps what every operation says comes to an end, and afterwards no
more operations have regions than before. -/
def Calm (P : Node → Prop) {α : Type} (s : Sweep σ) : Checked (α × Sweep σ) → Prop :=
  Ends (fun out => (out.2.ops.nesting ⊆ s.ops.nesting ∧ s.ops.Spent out.2.ops) ∧ out.2.ops.Every P)
    s.ops.Stops

theorem calm_mapAccumM {α β : Type} {f : Sweep σ → α → Checked (β × Sweep σ)} {xs : List α}
    {s : Sweep σ} (every : s.ops.Every P)
    (step : ∀ t : Sweep σ, t.ops.nesting ⊆ s.ops.nesting → t.ops.Every P → ∀ a ∈ xs,
      Calm P t (f t a)) :
    Ends (fun out => ((out.2.ops.nesting ⊆ s.ops.nesting ∧ s.ops.Spent out.2.ops) ∧
      out.2.ops.Every P) ∧ out.1.length = xs.length) s.ops.Stops (mapAccumM f s xs) := by
  have each := Ends.mapAccumM
    (L := fun s t : Sweep σ => t.ops.nesting ⊆ s.ops.nesting ∧ s.ops.Spent t.ops)
    (R := fun _ (_ : α) (_ : β) => True)
    (fun s => ⟨Finset.Subset.refl s.ops.nesting, .refl s.ops⟩)
    (fun h h' => ⟨h'.1.trans h.1, h.2.trans h'.2⟩) (fun _ _ => trivial)
    (I := fun s => s.ops.Every P)
    (fun t ht hI a ha => (step t ht.1 hI a ha).imp (fun _ ⟨calmer, every⟩ =>
      ⟨calmer, every, trivial⟩) fun _ => ht.2.stops) every
  exact each.imp (fun _ ⟨calmer, every, same⟩ => ⟨⟨calmer, every⟩, same.length_eq.symm⟩)
    fun _ h => h

variable (keeps : ∀ id (op : Op) state, P op.toNode → P (visit id op state).2.1)

include keeps

section

variable {region : Sweep σ → List OpId → Checked (List OpId × Sweep σ)} {bound : Nat}
  (inside : ∀ s ids, s.ops.nesting.card < bound → s.ops.Every P → Calm P s (region s ids))
  {s : Sweep σ} (small : s.ops.nesting.card ≤ bound) (every : s.ops.Every P)

include inside small every

theorem descend_calm {id : OpId} {op : Op} {node : Node} {state : σ}
    (hop : s.ops.get? id.index = some op)
    (decides : visit id op s.state = (.descend, node, state)) :
    Calm P s (one visit region s id) := by
  have holds : P node := by
    have kept := keeps id op s.state (every _ _ hop)
    rwa [decides] at kept
  have filled : op.regions ≠ [] → id.index ∈ s.ops.nesting := fun regions =>
    Slots.mem_nesting.mpr ⟨op, hop, regions⟩
  have spent := s.ops.spent_put id.index { node with regions := [] }
  simp only [one, Slots.get, hop, ok_bind, decides, Slots.put_put]
  generalize emptied : s.ops.put id.index { node with regions := [] } = bare at spent
  have calmer : bare.nesting ⊆ s.ops.nesting :=
    emptied ▸ Slots.nesting_put_subset (Finset.Subset.refl _) fun regions => absurd rfl regions
  have rewritten : bare.Every P := emptied ▸ every.put holds
  -- inside the operation there is one less to go down into
  have fewer : ∀ ids ∈ op.regions, bare.nesting.card < bound := by
    intro ids hids
    have absent : id.index ∉ bare.nesting := emptied ▸ Slots.not_mem_nesting_put rfl
    have present : id.index ∈ s.ops.nesting := filled (List.ne_nil_of_mem hids)
    have strict : bare.nesting ⊂ s.ops.nesting :=
      Finset.ssubset_iff_subset_ne.mpr ⟨calmer, fun same => absent (same ▸ present)⟩
    exact (Finset.card_lt_card strict).trans_le small
  have inner := calm_mapAccumM (s := ⟨bare, s.erased, state⟩) rewritten
    fun t ht every ids hids =>
      inside t ids ((Finset.card_le_card ht).trans_lt (fewer ids hids)) every
  refine Ends.bind (inner.imp (fun _ h => h) fun _ => spent.stops) ?_
  rintro ⟨regions, t⟩ ⟨⟨⟨below, gone⟩, every⟩, length⟩
  have spent := spent.trans gone
  refine Ends.bind ((t.ops.get_ends id.index).imp (fun _ h => h) fun _ => spent.stops)
    fun now hnow => ?_
  refine ⟨⟨Slots.nesting_put_subset (below.trans calmer) fun restored => filled ?_,
    spent.trans (Slots.spent_put _ _ _)⟩, every.put (every id.index now hnow)⟩
  rintro empty
  rw [empty] at length
  exact restored (List.length_eq_zero_iff.mp length)

theorem one_calm (id : OpId) : Calm P s (one visit region s id) := by
  cases hop : s.ops.get? id.index with
  | none =>
    simp only [one, Slots.get, hop]
    exact .vacant id.index
  | some op =>
    have holds := keeps id op s.state (every _ _ hop)
    obtain ⟨decision, node, state, decides⟩ :
        ∃ decision node state, visit id op s.state = (decision, node, state) := ⟨_, _, _, rfl⟩
    rw [decides] at holds
    have calmer : (s.ops.put id.index { node with regions := op.regions }).nesting ⊆
        s.ops.nesting := Slots.nesting_put_subset (Finset.Subset.refl _) fun regions =>
      Slots.mem_nesting.mpr ⟨op, hop, regions⟩
    have rewritten : (s.ops.put id.index { node with regions := op.regions }).Every P :=
      every.put holds
    have spent := s.ops.spent_put id.index { node with regions := op.regions }
    cases decision with
    | descend => exact descend_calm keeps inside small every hop decides
    | keep =>
      simp only [one, Slots.get, hop, ok_bind, decides]
      exact ⟨⟨calmer, spent⟩, rewritten⟩
    | erase =>
      simp only [one, Slots.get, hop, ok_bind, decides]
      refine Ends.bind ((Slots.prune_stops _ id).imp (fun _ h => h) fun _ => spent.stops) ?_
      rintro out ⟨within, gone⟩
      exact ⟨⟨within.nesting_subset.trans calmer, spent.trans gone⟩, rewritten.within within⟩

end

theorem list_calm {fuel : Nat} {s : Sweep σ} (enough : s.ops.nesting.card < fuel)
    (every : s.ops.Every P) (ids : List OpId) : Calm P s (list visit fuel s ids) := by
  induction fuel generalizing s ids with
  | zero => exact absurd enough (Nat.not_lt_zero _)
  | succ fuel ih =>
    refine (calm_mapAccumM every fun t ht every id _ => ?_).bind fun out ⟨calmer, _⟩ => calmer
    exact one_calm keeps (fun s ids few every => ih few every ids)
      ((Finset.card_le_card ht).trans (Nat.le_of_lt_succ enough)) every id

end Sweep

namespace LinkUnit

variable {σ : Type} {visit : Visitor σ} {P : Node → Prop}

/-- Whatever the operations of a unit contain, a sweep of it comes to an end, at worst at an
operation that is not there or that is not counted; and what every operation says, if the visitor
keeps it, is said afterwards. -/
theorem sweep_ends (u : LinkUnit) (every : u.ops.Every P)
    (keeps : ∀ id (op : Op) state, P op.toNode → P (visit id op state).2.1) (state : σ) :
    Ends (fun out => out.2.1.ops.Every P ∧ u.ops.Spent out.2.1.ops) u.ops.Stops
      (u.sweep visit state) := by
  have enough : u.ops.nesting.card < u.depth := Nat.lt_succ_of_le u.ops.card_nesting_le
  refine (Sweep.list_calm keeps (s := ⟨u.ops, 0, state⟩) enough every u.body).bind
    fun out ⟨⟨_, spent⟩, every⟩ => ⟨every, spent⟩

end LinkUnit

namespace Slots

theorem Every.extractWithin {P : Node → Prop} {ops : Slots Op} (h : ops.Every P) (fuel : Nat)
    (id : OpId) : ∀ t, (extractWithin fuel ops id).1 = some t → ∀ n ∈ t.nodes, P n := by
  induction fuel generalizing ops id with
  | zero => exact fun t ht => by cases ht
  | succ fuel ih =>
    cases hop : ops.get? id.index with
    | none =>
      simp only [Slots.extractWithin, hop]
      exact fun t ht => by cases ht
    | some op =>
      obtain ⟨-, each⟩ := mapAccum_grows (L := fun now later : Slots Op => later.Within now)
        (R := fun _ trees => ∀ t ∈ trees, ∀ n ∈ t.nodes, P n)
        (f := extractEach (Slots.extractWithin fuel)) (s := ops.without id.index)
        Within.refl (fun h h' => h'.trans h) op.regions fun now region hnow _ =>
          extractEach_spec now region fun later hlater child _ =>
            ⟨(extractWithin_spec fuel later child).1,
              ih (h.within ((hlater.trans hnow).trans (within_without ops id.index))) child⟩
      rw [Slots.extractWithin, hop]
      rintro t ⟨rfl⟩ n hn
      rw [Tree.nodes_node] at hn
      rcases List.mem_cons.mp hn with rfl | hn
      · exact h _ _ hop
      · obtain ⟨t, ht, hn⟩ := List.mem_flatMap.mp hn
        obtain ⟨trees, htrees, ht⟩ := List.mem_flatten.mp ht
        obtain ⟨_, -, holds⟩ := forall₂_exists_left each htrees
        exact holds t ht n hn

end Slots

namespace LinkUnit

variable {σ : Type} {u : LinkUnit}

theorem nodes_of_every {P : Node → Prop} (every : u.ops.Every P) :
    ∀ t ∈ u.forest, ∀ n ∈ t.nodes, P n :=
  (Slots.extractEach_spec u.ops u.body fun now hnow id _ =>
    ⟨(Slots.extractWithin_spec now.cells.size now id).1,
      (every.within hnow).extractWithin now.cells.size id⟩).2

theorem IsForest.fold_ends (forest : u.IsForest) {excused : Fault → Prop}
    {visit : σ → OpId → Op → Checked σ}
    (each : ∀ s id op, Ends (fun _ => True) excused (visit s id op)) (s : σ) :
    Ends (fun _ => True) excused (u.fold visit s) := by
  obtain ⟨ps, hps⟩ := isForest_iff.mp forest
  rw [fold_eq hps]
  exact Ends.foldlM (fun s _ e _ => each s e.1 e.2) trivial

end LinkUnit

end Linkage
