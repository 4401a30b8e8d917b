import Linkage.Proofs.Uprooting
import Linkage.Unit.Sweep
/-!
Sweeping a forest. On the trees a sweep is plain recursion: what the visitor erases is left out
with all below it, what it keeps is left alone, and where it descends the regions are swept in
turn. The sweep by slots does this for every forest, and touches nothing outside it.
-/
namespace Linkage

variable {σ : Type}

namespace Slots

variable {ops ops' ops'' : Slots Op} {before between after es : List (OpId × Op)}

theorem Becomes.of_holds (h : ops.Holds es) : ops.Becomes es es ops :=
  ⟨rfl, fun _ _ => rfl, h, fun _ hid hgone => absurd hid hgone, .refl _⟩

theorem Becomes.trans (h : ops.Becomes before between ops')
    (h' : ops'.Becomes between after ops'') : ops.Becomes before after ops'' where
  size := h'.size.trans h.size
  outside id hid := by
    rw [h'.outside id fun hmem => hid (h.within.subset hmem), h.outside id hid]
  holds := h'.holds
  vacant id hid hgone := by
    by_cases hmem : id ∈ between.map (·.1)
    · exact h'.vacant id hmem hgone
    · rw [h'.outside id hmem]
      exact h.vacant id hid hmem
  within := h'.within.trans h.within

theorem becomes_put {id : OpId} {op : Op} (h : ops.get? id.index = some op) (new : Op) :
    ops.Becomes [(id, op)] [(id, new)] (ops.put id.index new) := by
  have used : ops.contains id.index = true := contains_iff.mpr ⟨op, h⟩
  refine ⟨size_put _ _ _, fun other hother => ?_, ?_, fun _ hid hgone => absurd hid hgone, .refl _⟩
  · have hne : other.index ≠ id.index := fun heq =>
      hother (List.mem_singleton.mpr (OpId.index_injective heq))
    rw [get?_put, if_neg fun both => hne both.1]
  · intro e he
    rw [List.mem_singleton.mp he, get?_put, if_pos ⟨rfl, used⟩]

theorem becomes_put_root {id : OpId} {op : Op} {nested : List (OpId × Op)}
    (holds : ops.Holds ((id, op) :: nested)) (apart : id ∉ nested.map (·.1)) (new : Op) :
    ops.Becomes ((id, op) :: nested) ((id, new) :: nested) (ops.put id.index new) := by
  obtain ⟨hroot, hnested⟩ := List.forall_mem_cons.mp holds
  have disjoint := List.singleton_disjoint.mpr apart
  have written := becomes_put hroot new
  exact written.append (.of_holds (written.keeps hnested disjoint)) disjoint

theorem becomes_rewrite {id : OpId} {root : Node} {regions : List (List Placed)}
    (holds : ops.Holds (Placed.node id root regions).entries)
    (nodup : (Placed.node id root regions).ids.Nodup) (node : Node) :
    ops.Becomes (Placed.node id root regions).entries (Placed.node id node regions).entries
      (ops.put id.index (Placed.node id node regions).op) := by
  rw [Placed.entries_node] at holds ⊢
  rw [Placed.entries_node]
  exact becomes_put_root holds (Placed.nodup_ids_node.mp nodup).1 _

end Slots

namespace Placed

mutual

def sweep (visit : Visitor σ) : Placed → σ → Option Placed × σ
  | .node id root regions, state =>
    match visit id (Placed.node id root regions).op state with
    | (.erase, _, state) => (none, state)
    | (.keep, root, state) => (some (.node id root regions), state)
    | (.descend, root, state) =>
      let (regions, state) := sweepRegions visit regions state
      (some (.node id root regions), state)

def sweepList (visit : Visitor σ) : List Placed → σ → List Placed × σ
  | [], state => ([], state)
  | p :: rest, state =>
    let (kept, state) := sweep visit p state
    let (others, state) := sweepList visit rest state
    (kept.toList ++ others, state)

def sweepRegions (visit : Visitor σ) : List (List Placed) → σ → List (List Placed) × σ
  | [], state => ([], state)
  | region :: rest, state =>
    let (kept, state) := sweepList visit region state
    let (others, state) := sweepRegions visit rest state
    (kept :: others, state)

end

end Placed

namespace Sweep

/-- What a sweep did to the operations at some slots. -/
structure Done (s : Sweep σ) (before after : List (OpId × Op)) (s' : Sweep σ) : Prop extends
    s.ops.Becomes before after s'.ops where
  count : s'.erased + after.length = s.erased + before.length
  live : s'.ops.live + before.length = s.ops.live + after.length

theorem Done.refl (s : Sweep σ) : s.Done [] [] s := ⟨.refl s.ops, rfl, rfl⟩

theorem Done.append {s s' s'' : Sweep σ} {before after before' after' : List (OpId × Op)}
    (h : s.Done before after s') (h' : s'.Done before' after' s'')
    (apart : (before.map (·.1)).Disjoint (before'.map (·.1))) :
    s.Done (before ++ before') (after ++ after') s'' := by
  have := h.count
  have := h'.count
  have := h.live
  have := h'.live
  refine ⟨h.toBecomes.append h'.toBecomes apart, ?_, ?_⟩
  · simp only [List.length_append]
    omega
  · simp only [List.length_append]
    omega

/-- If the counter lasts for one part and runs out in the next, it runs out before both are
counted off. -/
theorem Done.runsOut {s s' : Sweep σ} {before after before' : List (OpId × Op)} {fault : Fault}
    (h : s.Done before after s') (short : s'.ops.RunsOut before'.length fault) :
    s.ops.RunsOut (before ++ before').length fault := by
  have := h.live
  have := short.2
  refine ⟨short.1, ?_⟩
  rw [List.length_append]
  omega

variable {visit : Visitor σ} {fuel : Nat}

def EndsAs {α : Type} (s : Sweep σ) (before : List (OpId × Op)) (kept : α)
    (after : List (OpId × Op)) (state : σ) : Checked (α × Sweep σ) → Prop :=
  Ends (fun out => out.1 = kept ∧ out.2.state = state ∧ s.Done before after out.2)
    (s.ops.RunsOut before.length)

def Sweeps (visit : Visitor σ) (fuel : Nat) (p : Placed) : Prop :=
  ∀ s : Sweep σ, s.ops.Holds p.entries →
    s.EndsAs p.entries ((p.sweep visit s.state).1.map Placed.id)
      ((p.sweep visit s.state).1.toList.flatMap Placed.entries) (p.sweep visit s.state).2
      (one visit (list visit fuel) s p.id)

variable {s : Sweep σ} {α β : Type} {before after before' after' : List (OpId × Op)}
  {x : Checked (α × Sweep σ)} {kept : α} {state : σ}

theorem EndsAs.map (h : s.EndsAs before kept after state x) (f : α → β) :
    s.EndsAs before (f kept) after state (x >>= fun out => .ok (f out.1, out.2)) :=
  h.bind fun _ ⟨same, rest⟩ => ⟨congrArg f same, rest⟩

theorem EndsAs.bind {kept' : β} {state' : σ} {next : α × Sweep σ → Checked (β × Sweep σ)}
    (h : s.EndsAs before kept after state x)
    (apart : (before.map (·.1)).Disjoint (before'.map (·.1)))
    (each : ∀ t : Sweep σ, t.state = state → s.Done before after t →
      t.EndsAs before' kept' after' state' (next (kept, t))) :
    s.EndsAs (before ++ before') kept' (after ++ after') state' (x >>= next) := by
  cases x with
  | error fault =>
    obtain ⟨same, short⟩ : s.ops.RunsOut before.length fault := h
    refine ⟨same, ?_⟩
    rw [List.length_append]
    omega
  | ok out =>
    obtain ⟨t⟩ := out
    obtain ⟨rfl, hstate, hdone⟩ := h
    exact (each _ hstate hdone).imp
      (fun _ ⟨same, hstate', hdone'⟩ => ⟨same, hstate', hdone.append hdone' apart⟩)
      fun _ short => hdone.runsOut short

theorem list_cons (s : Sweep σ) (id : OpId) (ids : List OpId) :
    list visit (fuel + 1) s (id :: ids) = (do
      let (first, s) ← one visit (list visit fuel) s id
      let (kept, s) ← list visit (fuel + 1) s ids
      return (first.toList ++ kept, s)) := by
  simp only [list, mapAccumM]
  cases one visit (list visit fuel) s id with
  | error fault => rfl
  | ok out =>
    obtain ⟨first, t⟩ := out
    simp only [ok_bind]
    cases mapAccumM (one visit (list visit fuel)) t ids with
    | error fault => rfl
    | ok out => cases first <;> rfl

theorem list_ends {ps : List Placed} (each : ∀ p ∈ ps, Sweeps visit fuel p) {s : Sweep σ}
    (holds : s.ops.Holds (ps.flatMap Placed.entries))
    (nodup : ((ps.flatMap Placed.entries).map (·.1)).Nodup) :
    s.EndsAs (ps.flatMap Placed.entries) ((Placed.sweepList visit ps s.state).1.map Placed.id)
      ((Placed.sweepList visit ps s.state).1.flatMap Placed.entries)
      (Placed.sweepList visit ps s.state).2 (list visit (fuel + 1) s (ps.map Placed.id)) := by
  induction ps generalizing s with
  | nil => exact ⟨rfl, rfl, .refl s⟩
  | cons p rest ih =>
    rw [List.flatMap_cons] at holds nodup
    rw [List.map_append] at nodup
    have apart := List.disjoint_of_nodup_append nodup
    obtain ⟨hp, hrest⟩ := Slots.holds_append.mp holds
    rw [List.map_cons, list_cons, List.flatMap_cons, Placed.sweepList, List.map_append,
      List.flatMap_append]
    refine (each p List.mem_cons_self s hp).bind apart fun t hstate hdone => ?_
    have others := ih (fun q hq => each q (List.mem_cons_of_mem p hq))
      (hdone.toBecomes.keeps hrest apart) nodup.of_append_right
    rw [hstate] at others
    have kept : (p.sweep visit s.state).1.toList.map Placed.id =
        ((p.sweep visit s.state).1.map Placed.id).toList := by
      cases (p.sweep visit s.state).1 <;> rfl
    rw [kept]
    exact others.map (((p.sweep visit s.state).1.map Placed.id).toList ++ ·)

theorem regions_ends {regions : List (List Placed)}
    (each : ∀ region ∈ regions, ∀ p ∈ region, Sweeps visit fuel p) {s : Sweep σ}
    (holds : s.ops.Holds (regions.flatten.flatMap Placed.entries))
    (nodup : ((regions.flatten.flatMap Placed.entries).map (·.1)).Nodup) :
    s.EndsAs (regions.flatten.flatMap Placed.entries)
      ((Placed.sweepRegions visit regions s.state).1.map (·.map Placed.id))
      ((Placed.sweepRegions visit regions s.state).1.flatten.flatMap Placed.entries)
      (Placed.sweepRegions visit regions s.state).2
      (mapAccumM (list visit (fuel + 1)) s (regions.map (·.map Placed.id))) := by
  induction regions generalizing s with
  | nil => exact ⟨rfl, rfl, .refl s⟩
  | cons region rest ih =>
    rw [List.flatten_cons, List.flatMap_append] at holds nodup
    rw [List.map_append] at nodup
    have apart := List.disjoint_of_nodup_append nodup
    obtain ⟨hregion, hrest⟩ := Slots.holds_append.mp holds
    rw [List.flatten_cons, List.flatMap_append, Placed.sweepRegions, List.flatten_cons,
      List.flatMap_append]
    refine (list_ends (each region List.mem_cons_self) hregion nodup.of_append_left).bind apart
      fun t hstate hdone => ?_
    have others := ih (fun r hr => each r (List.mem_cons_of_mem region hr))
      (hdone.toBecomes.keeps hrest apart) nodup.of_append_right
    rw [hstate] at others
    exact others.map (((Placed.sweepList visit region s.state).1.map Placed.id) :: ·)

section

variable {id : OpId} {root node : Node} {regions : List (List Placed)}

theorem keep_ends (holds : s.ops.Holds (Placed.node id root regions).entries)
    (nodup : (Placed.node id root regions).ids.Nodup)
    (decides : visit id (Placed.node id root regions).op s.state = (.keep, node, state)) :
    s.EndsAs (Placed.node id root regions).entries (some id) (Placed.node id node regions).entries
      state (one visit (list visit fuel) s id) := by
  have hroot : s.ops.get? id.index = some (Placed.node id root regions).op :=
    holds _ (Placed.mem_entries _)
  simp only [one, Slots.get, hroot, ok_bind, decides]
  refine ⟨rfl, rfl, Slots.becomes_rewrite holds nodup node, ?_, ?_⟩
  · simp only [Placed.entries_node, List.length_cons]
  · simp only [Slots.live_put, Placed.entries_node, List.length_cons]

theorem erase_ends (holds : s.ops.Holds (Placed.node id root regions).entries)
    (nodup : (Placed.node id root regions).ids.Nodup)
    (decides : visit id (Placed.node id root regions).op s.state = (.erase, node, state)) :
    s.EndsAs (Placed.node id root regions).entries none [] state
      (one visit (list visit fuel) s id) := by
  have hroot : s.ops.get? id.index = some (Placed.node id root regions).op :=
    holds _ (Placed.mem_entries _)
  have written := Slots.becomes_rewrite holds nodup node
  have nodup' : (Placed.node id node regions).ids.Nodup :=
    Placed.nodup_ids_node.mpr (Placed.nodup_ids_node.mp nodup)
  have same : (Placed.node id node regions).entries.length =
      (Placed.node id root regions).entries.length := by
    simp only [Placed.entries_node, List.length_cons]
  simp only [one, Slots.get, hroot, ok_bind, decides]
  have pruned := Slots.prune_ends written.holds nodup'
  rw [same, Slots.live_put] at pruned
  refine Ends.bind (pruned.imp (fun _ h => h) fun fault ⟨same, short⟩ => ⟨same, ?_⟩)
    fun out ⟨count, gone, live⟩ => ?_
  · rwa [Slots.live_put] at short
  refine ⟨rfl, rfl, written.trans gone, ?_, live⟩
  rw [count]
  rfl

/-- A root on its way into its regions: it is written, loses its regions while they are swept,
and gets back what is left of them. -/
theorem descend_ends (holds : s.ops.Holds (Placed.node id root regions).entries)
    (nodup : (Placed.node id root regions).ids.Nodup)
    (each : ∀ region ∈ regions, ∀ p ∈ region, Sweeps visit fuel p)
    (decides : visit id (Placed.node id root regions).op s.state = (.descend, node, state)) :
    s.EndsAs (Placed.node id root regions).entries (some id)
      (Placed.node id node (Placed.sweepRegions visit regions state).1).entries
      (Placed.sweepRegions visit regions state).2 (one visit (list visit (fuel + 1)) s id) := by
  obtain ⟨fresh, nodup⟩ := Placed.nodup_ids_node.mp nodup
  rw [Placed.entries_node] at holds ⊢
  have apart := List.singleton_disjoint.mpr fresh
  have hroot := holds _ List.mem_cons_self
  -- the two writes before the regions are swept
  have written := Slots.becomes_put_root holds fresh
    { node with regions := (Placed.node id root regions).op.regions }
  have emptied := Slots.becomes_put_root written.holds fresh { node with regions := [] }
  have ready := written.trans emptied
  have live : ((s.ops.put id.index { node with
      regions := (Placed.node id root regions).op.regions }).put id.index
      { node with regions := [] }).live = s.ops.live := by
    rw [Slots.live_put, Slots.live_put]
  simp only [one, Slots.get, hroot, ok_bind, decides]
  generalize (s.ops.put id.index _).put id.index { node with regions := [] } = ops at ready live ⊢
  obtain ⟨hbare, hnested⟩ := List.forall_mem_cons.mp ready.holds
  have swept := regions_ends each (s := ⟨ops, s.erased, state⟩) hnested nodup
  simp only at swept
  generalize Placed.sweepRegions visit regions state = result at swept ⊢
  refine Ends.bind (swept.imp (fun _ h => h) fun fault ⟨same, short⟩ => ⟨same, ?_⟩)
    fun ⟨kept, t⟩ ⟨hkept, hstate, hdone⟩ => ?_
  · rw [List.length_cons]
    simp only [live] at short
    omega
  · have bare := Slots.Becomes.of_holds (List.forall_mem_singleton.mpr hbare)
    have between : ops.Becomes ((id, { node with regions := [] }) :: _)
        ((id, { node with regions := [] }) :: result.1.flatten.flatMap Placed.entries) t.ops :=
      bare.append hdone.toBecomes apart
    -- what is left of the regions is written back
    have freshKept : id ∉ (result.1.flatten.flatMap Placed.entries).map (·.1) :=
      fun hmem => fresh (hdone.within.subset hmem)
    have restored := Slots.becomes_put_root between.holds freshKept
      (Placed.node id node result.1).op
    have hback := between.holds _ List.mem_cons_self
    have count : t.erased + _ = s.erased + _ := hdone.count
    have counted := hdone.live
    simp only at hback hkept
    simp only [hback, ok_bind, hkept]
    rw [Placed.entries_node]
    refine ⟨rfl, hstate, (ready.trans between).trans restored, ?_, ?_⟩
    · simp only [List.length_cons]
      omega
    · simp only [Slots.live_put, List.length_cons]
      simp only [live] at counted
      omega

end

theorem sweeps {p : Placed} (nodup : p.ids.Nodup) (enough : p.entries.length ≤ fuel) :
    Sweeps visit fuel p := by
  induction p generalizing fuel with
  | node id root regions ih =>
    intro s holds
    obtain ⟨more, rfl⟩ : ∃ more, fuel = more + 1 :=
      ⟨fuel - 1, by rw [Placed.entries_node, List.length_cons] at enough; omega⟩
    obtain ⟨decision, node, state, decides⟩ :
        ∃ decision node state, visit id (Placed.node id root regions).op s.state =
          (decision, node, state) := ⟨_, _, _, rfl⟩
    cases decision with
    | descend =>
      have each : ∀ region ∈ regions, ∀ p ∈ region, Sweeps visit more p := by
        intro region hregion p hp
        have hmem : p ∈ regions.flatten := List.mem_flatten.mpr ⟨region, hregion, hp⟩
        have nodup := (Placed.nodup_ids_node.mp nodup).2
        refine ih region hregion p hp (Placed.nodup_ids_of_mem nodup hmem) ?_
        rw [Placed.entries_node] at enough
        exact Nat.le_trans (Placed.length_entries_le hmem) (Nat.le_of_succ_le_succ enough)
      simp only [Placed.sweep, decides, Option.toList_some, List.flatMap_singleton]
      exact descend_ends holds nodup each decides
    | keep =>
      simp only [Placed.sweep, decides, Option.toList_some, List.flatMap_singleton]
      exact keep_ends holds nodup decides
    | erase =>
      simp only [Placed.sweep, decides, Option.toList_none, List.flatMap_nil]
      exact erase_ends holds nodup decides

end Sweep

structure LinkUnit.SweptAs (u : LinkUnit) (ps kept : List Placed) (erased : Nat)
    (ops : Slots Op) : Prop extends
    u.ops.Becomes (ps.flatMap Placed.entries) (kept.flatMap Placed.entries) ops where
  count : erased + (kept.flatMap Placed.entries).length = (ps.flatMap Placed.entries).length
  live : ops.live + (ps.flatMap Placed.entries).length =
    u.ops.live + (kept.flatMap Placed.entries).length

/-- A sweep of a forest touches the slots of its trees only, and leaves there what the trees become
when they are swept; or the counter runs out. -/
theorem LinkUnit.sweep_forest_ends {u : LinkUnit} {ps : List Placed} (h : u.Unfolds ps)
    (visit : Visitor σ) (state : σ) :
    Ends (fun (erased, u', state') => ∃ ops,
        u' = { u with ops, body := (Placed.sweepList visit ps state).1.map Placed.id } ∧
        state' = (Placed.sweepList visit ps state).2 ∧
        u.SweptAs ps (Placed.sweepList visit ps state).1 erased ops)
      (u.ops.RunsOut (ps.flatMap Placed.entries).length) (u.sweep visit state) := by
  have each : ∀ p ∈ ps, Sweep.Sweeps visit u.ops.cells.size p := fun p hp =>
    Sweep.sweeps (Placed.nodup_ids_of_mem h.nodup hp)
      (Nat.le_trans (Placed.length_entries_le hp) (h.holds.length_le h.nodup))
  have swept := Sweep.list_ends each (s := ⟨u.ops, 0, state⟩) h.holds h.nodup
  rw [LinkUnit.sweep, ← h.body, LinkUnit.depth]
  refine Ends.bind swept fun ⟨kept, s⟩ ⟨hkept, hstate, hdone⟩ => ?_
  refine ⟨s.ops, by rw [← hkept], hstate, hdone.toBecomes, ?_, hdone.live⟩
  simpa using hdone.count

/-- Where as many operations are counted as a unit reaches, the counter does not run out. -/
theorem LinkUnit.Covered.exists_ok {α : Type} {u : LinkUnit} (covered : u.Covered)
    {ps : List Placed} (h : u.Unfolds ps) {good : α → Prop} {x : Checked α}
    (ends : Ends good (u.ops.RunsOut (ps.flatMap Placed.entries).length) x) :
    ∃ a, x = .ok a ∧ good a := by
  have enough := (covered_iff h).mp covered
  have never : ∀ fault, u.ops.RunsOut (ps.flatMap Placed.entries).length fault → False :=
    fun _ short => absurd short.2 (Nat.not_lt_of_le enough)
  exact (ends.imp (fun _ holds => holds) never).exists_ok

theorem LinkUnit.Covered.exists_sweep {u : LinkUnit} (covered : u.Covered) {ps : List Placed}
    (h : u.Unfolds ps) (visit : Visitor σ) (state : σ) :
    ∃ erased u', u.sweep visit state =
        .ok (erased, u', (Placed.sweepList visit ps state).2) ∧
      ∃ ops, u' = { u with ops, body := (Placed.sweepList visit ps state).1.map Placed.id } ∧
        u.SweptAs ps (Placed.sweepList visit ps state).1 erased ops := by
  obtain ⟨⟨erased, u', last⟩, hsweep, ops, shape, rfl, swept⟩ :=
    covered.exists_ok h (sweep_forest_ends h visit state)
  exact ⟨erased, u', hsweep, ops, shape, swept⟩

theorem LinkUnit.SweptAs.unfolds {u : LinkUnit} {ps kept : List Placed} {erased : Nat}
    {ops : Slots Op} (swept : u.SweptAs ps kept erased ops) (h : u.Unfolds ps) :
    LinkUnit.Unfolds { u with ops, body := kept.map Placed.id } kept :=
  ⟨rfl, swept.holds, h.nodup.sublist swept.within⟩

end Linkage
