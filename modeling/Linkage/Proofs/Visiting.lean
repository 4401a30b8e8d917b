import Linkage.Proofs.Erasing
/-!
What a sweep of a forest asks its visitor, and what it makes of the answers. The calls come in
pre-order, one on each operation that is reached and is nested in none that the visitor did not go
on into. What it erases is cut out with all that is nested in it, what it was called on otherwise is
as it answered, and everything else is as it was.
-/
namespace Linkage

/-- A visitor was called on an operation, and answered. -/
structure Call where
  id : OpId
  op : Op
  decision : Decision
  node : Node

variable {σ : Type}

namespace Visitor

def recorded (visit : Visitor σ) : Visitor (σ × List Call) := fun id op s =>
  let (decision, node, state) := visit id op s.1
  (decision, node, state, s.2 ++ [⟨id, op, decision, node⟩])

/-- Some calls in turn, each in the state that the one before left. -/
inductive Runs (visit : Visitor σ) : σ → List Call → σ → Prop
  | done (state : σ) : Runs visit state [] state
  | call {c : Call} {calls : List Call} {state next last : σ}
      (answers : visit c.id c.op state = (c.decision, c.node, next))
      (rest : Runs visit next calls last) : Runs visit state (c :: calls) last

theorem Runs.append {visit : Visitor σ} {state next last : σ} {calls calls' : List Call}
    (h : visit.Runs state calls next) (h' : visit.Runs next calls' last) :
    visit.Runs state (calls ++ calls') last := by
  induction h with
  | done => exact h'
  | call answers _ ih => exact .call answers (ih h')

end Visitor

namespace Call

variable {calls calls' : List Call} {id : OpId} {node : Node}

def on (calls : List Call) (id : OpId) : List Call := calls.filter (·.id = id)

/-- An operation was called on, and the visitor did not go on into it. -/
def stopped (calls : List Call) (id : OpId) : Bool := (on calls id).any (·.decision ≠ .descend)

def dropped (calls : List Call) (id : OpId) : Bool := (on calls id).any (·.decision = .erase)

/-- What an operation became: what the visitor answered, or what it was. -/
def rewritten (calls : List Call) (id : OpId) (node : Node) : Node :=
  (on calls id).head?.elim node (·.node)

theorem mem_on {c : Call} : c ∈ on calls id ↔ c ∈ calls ∧ c.id = id := by
  rw [on, List.mem_filter, decide_eq_true_iff]

theorem stopped_iff :
    stopped calls id = true ↔ ∃ c ∈ calls, c.id = id ∧ c.decision ≠ .descend := by
  simp only [stopped, List.any_eq_true, mem_on, decide_eq_true_iff, and_assoc]

theorem dropped_iff : dropped calls id = true ↔ ∃ c ∈ calls, c.id = id ∧ c.decision = .erase := by
  simp only [dropped, List.any_eq_true, mem_on, decide_eq_true_iff, and_assoc]

theorem on_append (calls calls' : List Call) (id : OpId) :
    on (calls ++ calls') id = on calls id ++ on calls' id := List.filter_append _ _

theorem on_eq_nil (absent : id ∉ calls.map Call.id) : on calls id = [] :=
  List.filter_eq_nil_iff.mpr fun c hc same =>
    absent (List.mem_map.mpr ⟨c, hc, of_decide_eq_true same⟩)

theorem on_head {c : Call} (fresh : c.id ∉ calls.map Call.id) : on (c :: calls) c.id = [c] := by
  have none : calls.filter (·.id = c.id) = [] := on_eq_nil fresh
  rw [on, List.filter_cons_of_pos (by simp), none]

theorem on_tail {c : Call} (differs : c.id ≠ id) : on (c :: calls) id = on calls id :=
  List.filter_cons_of_neg (by simpa using differs)

theorem on_eq_singleton (nodup : (calls.map Call.id).Nodup) {c : Call} (hc : c ∈ calls) :
    on calls c.id = [c] := by
  obtain ⟨before, after, rfl⟩ := List.append_of_mem hc
  rw [List.map_append, List.map_cons] at nodup
  obtain ⟨-, hafter, apart⟩ := List.nodup_append.mp nodup
  have absent : c.id ∉ before.map Call.id := fun h => apart _ h _ List.mem_cons_self rfl
  rw [on_append, on_eq_nil absent, List.nil_append, on_head (List.nodup_cons.mp hafter).1]

end Call

namespace Placed

open Call

variable {stop : OpId → Bool} {visit : Visitor σ} {state next last : σ} {calls calls' : List Call}
  {ps qs : List Placed} {p : Placed}

/-- Going down into a tree from further up only adds what that is nested in. -/
theorem lines_eq_map (p : Placed) (above : List OpId) :
    p.lines above = (p.lines []).map fun l => { l with above := l.above ++ above } := by
  induction p using flatInduction generalizing above with
  | node id root regions ih =>
    rw [lines_node, lines_node, List.map_cons, List.map_flatMap]
    refine congrArg _ (List.flatMap_congr fun q hq => ?_)
    rw [ih q hq (id :: above), ih q hq [id], List.map_map]
    refine List.map_congr_left fun l _ => ?_
    simp only [Function.comp_apply, List.append_assoc, List.singleton_append]

/-- The operations of a tree that are nested in none of some others, in pre-order. -/
def met (stop : OpId → Bool) (p : Placed) : List OpId :=
  ((p.lines []).filter fun l => !l.above.any stop).map Line.id

theorem met_node (id : OpId) (root : Node) (regions : List (List Placed)) :
    (node id root regions).met stop =
      id :: if stop id then [] else regions.flatten.flatMap (met stop) := by
  have nested (q : Placed) : ((q.lines [id]).filter fun l => !l.above.any stop).map Line.id =
      if stop id then [] else q.met stop := by
    rw [lines_eq_map, List.filter_map, List.map_map]
    cases hstop : stop id <;> simp [Function.comp_def, hstop, met]
  rw [met, lines_node, List.filter_cons_of_pos rfl, List.map_cons, List.filter_flatMap,
    List.map_flatMap]
  simp only [nested]
  cases stop id <;> simp

theorem met_congr {p : Placed} (same : ∀ id ∈ p.ids, on calls id = on calls' id) :
    p.met (stopped calls) = p.met (stopped calls') := by
  induction p using flatInduction with
  | node id root regions ih =>
    rw [ids_node] at same
    obtain ⟨here, below⟩ := List.forall_mem_cons.mp same
    have nested : regions.flatten.flatMap (met (stopped calls)) =
        regions.flatten.flatMap (met (stopped calls')) :=
      List.flatMap_congr fun q hq => ih q hq fun id hid =>
        below id (List.mem_flatMap.mpr ⟨q, hq, hid⟩)
    rw [met_node, met_node, nested, stopped, stopped, here]

def remains (calls : List Call) : Placed → List Placed := cut (dropped calls) (rewritten calls)

theorem remains_node (id : OpId) (root : Node) (regions : List (List Placed)) :
    (node id root regions).remains calls = if dropped calls id then []
      else [.node id (rewritten calls id root) (regions.map (·.flatMap (remains calls)))] :=
  cut_node id root regions

theorem remains_congr {p : Placed} (same : ∀ id ∈ p.ids, on calls id = on calls' id) :
    p.remains calls = p.remains calls' := by
  induction p using flatInduction with
  | node id root regions ih =>
    rw [ids_node] at same
    obtain ⟨here, below⟩ := List.forall_mem_cons.mp same
    have nested : regions.map (·.flatMap (remains calls)) =
        regions.map (·.flatMap (remains calls')) := by
      refine List.map_congr_left fun region hregion => List.flatMap_congr fun q hq => ?_
      have hq := List.mem_flatten.mpr ⟨region, hregion, hq⟩
      exact ih q hq fun id hid => below id (List.mem_flatMap.mpr ⟨q, hq, hid⟩)
    rw [remains_node, remains_node, nested, dropped, dropped, rewritten, rewritten, here]

theorem map_remains_of_each {regions : List (List Placed)}
    (each : ∀ q ∈ regions.flatten, q.remains [] = [q]) :
    regions.map (·.flatMap (remains [])) = regions := by
  refine (List.map_congr_left fun region hregion => ?_).trans (List.map_id regions)
  refine (List.flatMap_congr fun q hq => ?_).trans (List.flatMap_singleton' region)
  exact each q (List.mem_flatten.mpr ⟨region, hregion, hq⟩)

theorem remains_nil (p : Placed) : p.remains [] = [p] := by
  induction p using flatInduction with
  | node id root regions ih =>
    rw [remains_node, map_remains_of_each ih]
    rfl

/-- The calls of a sweep of some trees. -/
structure Follows (visit : Visitor σ) (ps : List Placed) (state : σ) (calls : List Call)
    (last : σ) : Prop where
  runs : visit.Runs state calls last
  within : ∀ c ∈ calls, (c.id, c.op) ∈ ps.flatMap entries
  order : calls.map Call.id = ps.flatMap (met (stopped calls))

theorem Follows.done (state : σ) : Follows visit [] state [] state :=
  ⟨.done state, fun _ hc => absurd hc List.not_mem_nil, rfl⟩

theorem Follows.absent (h : Follows visit ps state calls last) {id : OpId}
    (outside : id ∉ ps.flatMap ids) : id ∉ calls.map Call.id := by
  refine fun hid => outside ?_
  obtain ⟨c, hc, rfl⟩ := List.mem_map.mp hid
  obtain ⟨p, hp, he⟩ := List.mem_flatMap.mp (h.within c hc)
  exact List.mem_flatMap.mpr ⟨p, hp, List.mem_map.mpr ⟨_, he, rfl⟩⟩

section

variable (h : Follows visit ps state calls next) (h' : Follows visit qs next calls' last)
  (apart : (ps.flatMap ids).Disjoint (qs.flatMap ids))

include h' apart in
theorem Follows.on_left (hp : p ∈ ps) : ∀ id ∈ p.ids, on (calls ++ calls') id = on calls id := by
  intro id hid
  have outside := apart (List.mem_flatMap.mpr ⟨p, hp, hid⟩)
  rw [on_append, on_eq_nil (h'.absent outside), List.append_nil]

include h apart in
theorem Follows.on_right (hp : p ∈ qs) : ∀ id ∈ p.ids, on (calls ++ calls') id = on calls' id := by
  intro id hid
  have outside := apart.symm (List.mem_flatMap.mpr ⟨p, hp, hid⟩)
  rw [on_append, on_eq_nil (h.absent outside), List.nil_append]

include h h' apart

theorem Follows.append : Follows visit (ps ++ qs) state (calls ++ calls') last where
  runs := h.runs.append h'.runs
  within c hc := by
    rw [List.flatMap_append]
    rcases List.mem_append.mp hc with hc | hc
    · exact List.mem_append_left _ (h.within c hc)
    · exact List.mem_append_right _ (h'.within c hc)
  order := by
    rw [List.map_append, List.flatMap_append, h.order, h'.order]
    exact congrArg₂ _
      (List.flatMap_congr fun p hp => met_congr fun id hid => (h'.on_left apart hp id hid).symm)
      (List.flatMap_congr fun p hp => met_congr fun id hid => (h.on_right apart hp id hid).symm)

end

def Obeys (visit : Visitor σ) (p : Placed) : Prop :=
  ∀ state, ∃ kept calls last, p.sweep visit state = (kept, last) ∧
    (∀ log, p.sweep visit.recorded (state, log) = (kept, last, log ++ calls)) ∧
    kept.toList = p.remains calls ∧ Follows visit [p] state calls last

theorem sweepList_follows (each : ∀ p ∈ ps, Obeys visit p) (nodup : (ps.flatMap ids).Nodup)
    (state : σ) : ∃ calls last,
      sweepList visit ps state = (ps.flatMap (remains calls), last) ∧
      (∀ log, sweepList visit.recorded ps (state, log) =
        (ps.flatMap (remains calls), last, log ++ calls)) ∧
      Follows visit ps state calls last := by
  induction ps generalizing state with
  | nil => exact ⟨[], state, rfl, fun log => by rw [List.append_nil]; rfl, .done state⟩
  | cons p rest ih =>
    obtain ⟨first, others⟩ := List.forall_mem_cons.mp each
    rw [List.flatMap_cons] at nodup
    obtain ⟨kept, calls, next, run, records, left, follows⟩ := first state
    obtain ⟨calls', last, run', records', follows'⟩ := ih others nodup.of_append_right next
    have apart : ([p].flatMap ids).Disjoint (rest.flatMap ids) := by
      rw [List.flatMap_singleton]
      exact List.disjoint_of_nodup_append nodup
    have here : p.remains (calls ++ calls') = kept.toList :=
      (remains_congr (follows'.on_left apart List.mem_cons_self)).trans left.symm
    have there : rest.flatMap (remains (calls ++ calls')) = rest.flatMap (remains calls') :=
      List.flatMap_congr fun q hq => remains_congr (follows.on_right apart hq)
    refine ⟨calls ++ calls', last, ?_, fun log => ?_, follows.append follows' apart⟩
    · simp only [sweepList, run, run', List.flatMap_cons, here, there]
    · simp only [sweepList, records, records', List.flatMap_cons, here, there, List.append_assoc]

theorem sweepRegions_follows {regions : List (List Placed)}
    (each : ∀ p ∈ regions.flatten, Obeys visit p) (nodup : (regions.flatten.flatMap ids).Nodup)
    (state : σ) : ∃ calls last,
      sweepRegions visit regions state = (regions.map (·.flatMap (remains calls)), last) ∧
      (∀ log, sweepRegions visit.recorded regions (state, log) =
        (regions.map (·.flatMap (remains calls)), last, log ++ calls)) ∧
      Follows visit regions.flatten state calls last := by
  induction regions generalizing state with
  | nil => exact ⟨[], state, rfl, fun log => by rw [List.append_nil]; rfl, .done state⟩
  | cons region rest ih =>
    rw [List.flatten_cons, List.flatMap_append] at nodup
    obtain ⟨calls, next, run, records, follows⟩ := sweepList_follows
      (fun p hp => each p (List.mem_append_left _ hp)) nodup.of_append_left state
    obtain ⟨calls', last, run', records', follows'⟩ :=
      ih (fun p hp => each p (List.mem_append_right _ hp)) nodup.of_append_right next
    have apart := List.disjoint_of_nodup_append nodup
    have here : region.flatMap (remains (calls ++ calls')) = region.flatMap (remains calls) :=
      List.flatMap_congr fun q hq => remains_congr (follows'.on_left apart hq)
    have there : rest.map (·.flatMap (remains (calls ++ calls'))) =
        rest.map (·.flatMap (remains calls')) :=
      List.map_congr_left fun r hr => List.flatMap_congr fun q hq =>
        remains_congr (follows.on_right apart (List.mem_flatten.mpr ⟨r, hr, hq⟩))
    refine ⟨calls ++ calls', last, ?_, fun log => ?_, follows.append follows' apart⟩
    · simp only [sweepRegions, run, run', List.map_cons, here, there]
    · simp only [sweepRegions, records, records', List.map_cons, here, there, List.append_assoc]

theorem on_tail_of_fresh {c : Call} (fresh : c.id ∉ ps.flatMap ids) (hp : p ∈ ps) :
    ∀ id ∈ p.ids, on (c :: calls) id = on calls id := fun _ hid =>
  on_tail fun same => fresh (same ▸ List.mem_flatMap.mpr ⟨p, hp, hid⟩)

section

variable {id : OpId} {root node : Node} {regions : List (List Placed)} {decision : Decision}

theorem remains_enter (fresh : id ∉ regions.flatten.flatMap ids) (absent : id ∉ calls.map Call.id)
    (op : Op) (kept : decision ≠ .erase) :
    (Placed.node id root regions).remains (⟨id, op, decision, node⟩ :: calls) =
      [.node id node (regions.map (·.flatMap (remains calls)))] := by
  generalize hc : Call.mk id op decision node = c
  have hid : c.id = id := hc ▸ rfl
  have alone : on (c :: calls) id = [c] := hid ▸ on_head (hid ▸ absent)
  have stays : dropped (c :: calls) id = false := by rw [dropped, alone, ← hc]; simpa using kept
  have edited : rewritten (c :: calls) id root = node := by rw [rewritten, alone, ← hc]; rfl
  have nested : regions.map (·.flatMap (remains (c :: calls))) =
      regions.map (·.flatMap (remains calls)) :=
    List.map_congr_left fun region hregion => List.flatMap_congr fun q hq =>
      remains_congr (on_tail_of_fresh (hid ▸ fresh) (List.mem_flatten.mpr ⟨region, hregion, hq⟩))
  rw [remains_node, stays, if_neg Bool.false_ne_true, edited, nested]

theorem Follows.halt (halts : decision ≠ .descend)
    (answers : visit id (Placed.node id root regions).op state = (decision, node, next)) :
    Follows visit [.node id root regions] state
      [⟨id, (Placed.node id root regions).op, decision, node⟩] next where
  runs := .call answers (.done next)
  within c hc := by
    rw [List.flatMap_singleton, List.mem_singleton.mp hc]
    exact mem_entries (.node id root regions)
  order := by
    have halted : stopped [⟨id, (Placed.node id root regions).op, decision, node⟩] id = true :=
      stopped_iff.mpr ⟨_, List.mem_singleton_self _, rfl, halts⟩
    rw [List.flatMap_singleton, met_node, if_pos halted]
    rfl

theorem Follows.enter (fresh : id ∉ regions.flatten.flatMap ids)
    (answers : visit id (Placed.node id root regions).op state = (.descend, node, next))
    (h : Follows visit regions.flatten next calls last) :
    Follows visit [.node id root regions] state
      (⟨id, (Placed.node id root regions).op, .descend, node⟩ :: calls) last where
  runs := .call answers h.runs
  within c hc := by
    rw [List.flatMap_singleton, entries_node]
    rcases List.mem_cons.mp hc with rfl | hc
    · exact List.mem_cons_self
    · exact List.mem_cons_of_mem _ (h.within c hc)
  order := by
    generalize hc : Call.mk id _ .descend node = c
    have hid : c.id = id := hc ▸ rfl
    have alone : on (c :: calls) id = [c] := hid ▸ on_head (hid ▸ h.absent fresh)
    have entered : stopped (c :: calls) id = false := by rw [stopped, alone, ← hc]; rfl
    have nested : regions.flatten.flatMap (met (stopped (c :: calls))) =
        regions.flatten.flatMap (met (stopped calls)) :=
      List.flatMap_congr fun q hq => met_congr (on_tail_of_fresh (hid ▸ fresh) hq)
    rw [List.flatMap_singleton, met_node, entered, if_neg Bool.false_ne_true, nested, List.map_cons,
      h.order, hid]

end

theorem obeys {p : Placed} (nodup : p.ids.Nodup) : Obeys visit p := by
  induction p using flatInduction with
  | node id root regions ih =>
    intro state
    obtain ⟨fresh, distinct⟩ := nodup_ids_node.mp nodup
    have each (q : Placed) (hq : q ∈ regions.flatten) : Obeys visit q :=
      ih q hq (nodup_ids_of_mem distinct hq)
    rw [map_id_entries] at fresh distinct
    obtain ⟨decision, node, next, decides⟩ :
        ∃ decision node next, visit id (Placed.node id root regions).op state =
          (decision, node, next) := ⟨_, _, _, rfl⟩
    cases decision with
    | erase =>
      refine ⟨none, _, next, ?_, fun log => ?_, ?_, .halt (by decide) decides⟩
      · simp only [sweep, decides]
      · simp only [sweep, Visitor.recorded, decides]
      · rw [remains_node, if_pos (dropped_iff.mpr ⟨_, List.mem_singleton_self _, rfl, rfl⟩)]
        rfl
    | keep =>
      refine ⟨some (.node id node regions), _, next, ?_, fun log => ?_, ?_,
        .halt (by decide) decides⟩
      · simp only [sweep, decides]
      · simp only [sweep, Visitor.recorded, decides]
      · rw [remains_enter fresh List.not_mem_nil _ (by decide),
          map_remains_of_each fun q _ => q.remains_nil]
        rfl
    | descend =>
      obtain ⟨calls, last, run, records, follows⟩ := sweepRegions_follows each distinct next
      refine ⟨some (.node id node (regions.map (·.flatMap (remains calls)))), _, last, ?_,
        fun log => ?_, ?_, .enter fresh decides follows⟩
      · simp only [sweep, decides, run]
      · simp only [sweep, Visitor.recorded, decides, records, List.append_assoc,
          List.singleton_append]
      · exact (remains_enter fresh (follows.absent fresh) _ (by decide)).symm

theorem id_not_mem_above {p : Placed} (nodup : p.ids.Nodup) {above : List OpId}
    (apart : above.Disjoint p.ids) {l : Line} (hl : l ∈ p.lines above) : l.id ∉ l.above := by
  induction p using flatInduction generalizing above with
  | node id root regions ih =>
    obtain ⟨fresh, distinct⟩ := nodup_ids_node.mp nodup
    rw [map_id_entries] at fresh
    rw [ids_node] at apart
    rw [lines_node] at hl
    rcases List.mem_cons.mp hl with rfl | hl
    · exact fun inside => apart inside List.mem_cons_self
    · obtain ⟨q, hq, hl⟩ := List.mem_flatMap.mp hl
      refine ih q hq (nodup_ids_of_mem distinct hq) (fun other hother hid => ?_) hl
      have inside := List.mem_flatMap.mpr ⟨q, hq, hid⟩
      rcases List.mem_cons.mp hother with rfl | hother
      · exact fresh inside
      · exact apart hother (List.mem_cons_of_mem _ inside)

theorem flatMap_met (stop : OpId → Bool) (ps : List Placed) : ps.flatMap (met stop) =
    ((forestLines ps).filter fun l => !l.above.any stop).map Line.id := by
  rw [forestLines, List.filter_flatMap, List.map_flatMap]
  rfl

theorem Follows.sublist (h : Follows visit ps state calls last) :
    (calls.map Call.id).Sublist ((ps.flatMap entries).map (·.1)) := by
  rw [h.order, flatMap_met, ← map_id_forestLines]
  exact List.filter_sublist.map _

end Placed

namespace LinkUnit

open Call

/-- What a sweep asked its visitor, and what the unit became. The calls are on the operations that
are reached and stand below none that the visitor did not go on into; what was erased is gone from
the slots and from the lists, what was called on otherwise is as the visitor answered. -/
structure Swept (u : LinkUnit) (visit : Visitor σ) (state : σ) (calls : List Call)
    (u' : LinkUnit) (last : σ) : Prop where
  id : u'.id = u.id
  tag : u'.tag = u.tag
  span : u'.span = u.span
  runs : visit.Runs state calls last
  order : ∃ ids, u.preorder = .ok ids ∧ ids.Nodup ∧ (calls.map Call.id).Sublist ids
  left : ∃ ids ids', u.preorder = .ok ids ∧ u'.preorder = .ok ids' ∧ ids'.Sublist ids ∧
    ∀ id, id ∈ ids' ↔ id ∈ ids ∧ ∀ c ∈ calls, c.decision = .erase → ¬ u.Below c.id id
  called : ∀ id, id ∈ calls.map Call.id ↔ (∃ op, u.Reaches id op) ∧
    ∀ c ∈ calls, c.decision ≠ .descend → u.Below c.id id → c.id = id
  held : ∀ c ∈ calls, u.ops.get? c.id.index = some c.op
  body : u'.body = u.body.filter (!dropped calls ·)
  erased : ∀ c ∈ calls, c.decision = .erase →
    ∀ id, u.Below c.id id → u'.ops.get? id.index = none
  edited : ∀ c ∈ calls, c.decision ≠ .erase →
    u'.ops.get? c.id.index = some (c.op.without (dropped calls) fun _ => c.node)
  others : ∀ id, id ∉ calls.map Call.id →
    (∀ c ∈ calls, c.decision = .erase → ¬ u.Below c.id id) →
    u'.ops.get? id.index = u.ops.get? id.index
  outside : ∀ id, (¬ ∃ op, u.Reaches id op) → u'.ops.get? id.index = u.ops.get? id.index

variable {u u' : LinkUnit} {ps : List Placed} {visit : Visitor σ} {state last : σ}
  {calls : List Call} {l : Line} {id : OpId}

theorem Unfolds.reaches_of_call (h : u.Unfolds ps) (f : Placed.Follows visit ps state calls last)
    {c : Call} (hc : c ∈ calls) : u.Reaches c.id c.op := h.reaches_iff.mpr (f.within c hc)

/-- The visitor is called on an operation if it went on into all that this is nested in. -/
theorem Unfolds.mem_calls_iff (h : u.Unfolds ps) (f : Placed.Follows visit ps state calls last)
    (hl : l ∈ Placed.forestLines ps) :
    l.id ∈ calls.map Call.id ↔ l.above.any (stopped calls) = false := by
  rw [f.order, Placed.flatMap_met, List.mem_map]
  constructor
  · rintro ⟨l', hl', same⟩
    obtain ⟨hl', entered⟩ := List.mem_filter.mp hl'
    rw [← h.line_unique hl' hl same]
    simpa using entered
  · exact fun entered => ⟨l, List.mem_filter.mpr ⟨hl, by simpa using entered⟩, rfl⟩

theorem Unfolds.called_iff (h : u.Unfolds ps) (f : Placed.Follows visit ps state calls last) :
    id ∈ calls.map Call.id ↔ (∃ op, u.Reaches id op) ∧
      ∀ c ∈ calls, c.decision ≠ .descend → u.Below c.id id → c.id = id := by
  constructor
  · intro hid
    obtain ⟨c, hc, rfl⟩ := List.mem_map.mp hid
    obtain ⟨above, hl⟩ := h.exists_line (h.reaches_of_call f hc)
    have entered := (h.mem_calls_iff f hl).mp hid
    refine ⟨⟨_, h.reaches_of_call f hc⟩, fun c' hc' halts below => ?_⟩
    have onLine := (h.mem_line_iff hl).mpr ⟨⟨_, h.reaches_of_call f hc'⟩, below⟩
    refine (List.mem_cons.mp onLine).resolve_right fun inside => ?_
    have halted : above.any (stopped calls) = true :=
      List.any_eq_true.mpr ⟨_, inside, stopped_iff.mpr ⟨c', hc', rfl, halts⟩⟩
    rw [entered] at halted
    cases halted
  · rintro ⟨⟨op, reached⟩, nearest⟩
    obtain ⟨above, hl⟩ := h.exists_line reached
    refine (h.mem_calls_iff f hl).mpr (Bool.eq_false_iff.mpr fun halted => ?_)
    obtain ⟨root, inside, halted⟩ := List.any_eq_true.mp halted
    obtain ⟨c, hc, rfl, halts⟩ := stopped_iff.mp halted
    obtain ⟨-, below⟩ := (h.mem_line_iff hl).mp (List.mem_cons_of_mem _ inside)
    obtain ⟨p, hp, hl⟩ := List.mem_flatMap.mp hl
    have apart := Placed.id_not_mem_above (Placed.nodup_ids_of_mem h.nodup hp)
      (List.disjoint_nil_left _) hl
    exact apart (nearest c hc halts below ▸ inside)

theorem Unfolds.under_iff_call (h : u.Unfolds ps) (f : Placed.Follows visit ps state calls last) :
    u.Under (dropped calls) id ↔ ∃ c ∈ calls, c.decision = .erase ∧ u.Below c.id id := by
  constructor
  · rintro ⟨root, gone, -, below⟩
    obtain ⟨c, hc, rfl, erases⟩ := dropped_iff.mp gone
    exact ⟨c, hc, erases, below⟩
  · rintro ⟨c, hc, erases, below⟩
    exact ⟨c.id, dropped_iff.mpr ⟨c, hc, rfl, erases⟩, ⟨_, h.reaches_of_call f hc⟩, below⟩

theorem Unfolds.without_eq_self (h : u.Unfolds ps) (f : Placed.Follows visit ps state calls last)
    {op : Op} (reached : u.Reaches id op) (absent : id ∉ calls.map Call.id) :
    op.without (dropped calls) (rewritten calls id) = op := by
  obtain ⟨above, hl⟩ := h.exists_line reached
  have regions : op.regions.map (·.filter (!dropped calls ·)) = op.regions := by
    refine (List.map_congr_left fun region hregion => ?_).trans (List.map_id _)
    refine List.filter_eq_self.mpr fun child hchild => ?_
    rw [Bool.not_eq_true', Bool.eq_false_iff]
    intro gone
    obtain ⟨c, hc, rfl, -⟩ := dropped_iff.mp gone
    obtain ⟨l', hl', same, line⟩ :=
      Placed.exists_child_line hl (List.mem_flatten.mpr ⟨region, hregion, hchild⟩)
    have entered := (h.mem_calls_iff f hl').mp (same ▸ List.mem_map_of_mem hc)
    rw [line, List.any_cons, Bool.or_eq_false_iff] at entered
    exact absent ((h.mem_calls_iff f hl).mpr entered.2)
  rw [Op.without, rewritten, on_eq_nil absent, regions]
  rfl

theorem Unfolds.not_under_of_call (h : u.Unfolds ps)
    (f : Placed.Follows visit ps state calls last) {c : Call} (hc : c ∈ calls)
    (stays : c.decision ≠ .erase) : ¬ u.Under (dropped calls) c.id := by
  intro under
  obtain ⟨c', hc', erases, below⟩ := (h.under_iff_call f).mp under
  have halts : c'.decision ≠ .descend := by rw [erases]; decide
  have same := (h.called_iff f).mp (List.mem_map_of_mem hc) |>.2 c' hc' halts below
  obtain rfl := List.inj_on_of_nodup_map (h.nodup.sublist f.sublist) hc' hc same
  exact stays erases

section

variable {ops : Slots Op} (h : u.Unfolds ps) (f : Placed.Follows visit ps state calls last)
  (becomes : u.ops.Becomes (ps.flatMap Placed.entries)
    ((ps.flatMap (Placed.remains calls)).flatMap Placed.entries) ops)

include h becomes in
theorem Unfolds.unfolds_remains : LinkUnit.Unfolds
    { u with ops, body := (ps.flatMap (Placed.remains calls)).map Placed.id }
    (ps.flatMap (Placed.remains calls)) :=
  ⟨rfl, becomes.holds, h.nodup.sublist becomes.within⟩

include h f

theorem Unfolds.mem_remains_iff :
    id ∈ ((ps.flatMap (Placed.remains calls)).flatMap Placed.entries).map (·.1) ↔
      id ∈ (ps.flatMap Placed.entries).map (·.1) ∧
        ∀ c ∈ calls, c.decision = .erase → ¬ u.Below c.id id := by
  have spared : (¬ u.Under (dropped calls) id) ↔
      ∀ c ∈ calls, c.decision = .erase → ¬ u.Below c.id id := by
    rw [h.under_iff_call f]
    push Not
    rfl
  rw [← spared, List.mem_map, List.mem_map]
  constructor
  · rintro ⟨e, he, rfl⟩
    obtain ⟨op, reached, apart, -⟩ := h.mem_cut_iff.mp he
    exact ⟨⟨_, h.reaches_iff.mp reached, rfl⟩, apart⟩
  · rintro ⟨⟨e, he, rfl⟩, apart⟩
    exact ⟨(e.1, e.2.without (dropped calls) (rewritten calls e.1)),
      h.mem_cut_iff.mpr ⟨e.2, h.reaches_iff.mpr he, apart, rfl⟩, rfl⟩

include becomes

theorem Unfolds.swept : u.Swept visit state calls
    { u with ops, body := (ps.flatMap (Placed.remains calls)).map Placed.id } last where
  id := rfl
  tag := rfl
  span := rfl
  runs := f.runs
  order := ⟨_, preorder_eq h, h.nodup, f.sublist⟩
  left := ⟨_, _, preorder_eq h, preorder_eq (h.unfolds_remains becomes), cut_within ps _ _,
    fun _ => h.mem_remains_iff f⟩
  called _ := h.called_iff f
  held c hc := (h.reaches_of_call f hc).1
  body := (Placed.map_id_cut ps).trans (by rw [h.body])
  erased c hc erases id below := by
    obtain ⟨op, reached⟩ := h.reaches_of_below (h.reaches_of_call f hc) below
    refine becomes.vacant id (List.mem_map.mpr ⟨_, h.reaches_iff.mp reached, rfl⟩) fun left => ?_
    exact ((h.mem_remains_iff f).mp left).2 c hc erases below
  edited c hc stays := by
    have answer : rewritten calls c.id = fun _ => c.node := by
      funext node
      rw [rewritten, on_eq_singleton (h.nodup.sublist f.sublist) hc]
      rfl
    exact becomes.holds (c.id, c.op.without (dropped calls) fun _ => c.node)
      (h.mem_cut_iff.mpr ⟨c.op, h.reaches_of_call f hc, h.not_under_of_call f hc stays,
        by rw [answer]⟩)
  others id absent apart := by
    by_cases touched : id ∈ (ps.flatMap Placed.entries).map (·.1)
    · obtain ⟨e, he, rfl⟩ := List.mem_map.mp touched
      have reached := h.reaches_iff.mpr he
      have spared : ¬ u.Under (dropped calls) e.1 := fun under => by
        obtain ⟨c, hc, erases, below⟩ := (h.under_iff_call f).mp under
        exact apart c hc erases below
      have same := h.without_eq_self f reached absent
      have left := h.mem_cut_iff.mpr ⟨e.2, reached, spared, same.symm⟩
      exact (becomes.holds e left).trans reached.1.symm
    · exact becomes.outside id touched
  outside id unreached := by
    refine becomes.outside id fun touched => unreached ?_
    obtain ⟨e, he, rfl⟩ := List.mem_map.mp touched
    exact ⟨e.2, h.reaches_iff.mpr he⟩

end

end LinkUnit

theorem Slots.Becomes.unique {ops ops' ops'' : Slots Op} {before after : List (OpId × Op)}
    (h : ops.Becomes before after ops') (h' : ops.Becomes before after ops'') (slot : Nat) :
    ops''.get? slot = ops'.get? slot := by
  by_cases touched : (⟨slot⟩ : OpId) ∈ before.map (·.1)
  · by_cases left : (⟨slot⟩ : OpId) ∈ after.map (·.1)
    · obtain ⟨⟨_, op⟩, he, rfl⟩ := List.mem_map.mp left
      exact (h'.holds _ he).trans (h.holds _ he).symm
    · exact (h'.vacant _ touched left).trans (h.vacant _ touched left).symm
  · exact (h'.outside _ touched).trans (h.outside _ touched).symm

/-- A sweep of a forest calls its visitor once on each operation that is nested in none that the
visitor left alone or erased, in pre-order, and does what it answers: what is erased is gone with
all below it, also from the list that held it, and all else is in its place as the visitor left it.
The answer is the number of operations gone, each of which is counted off. -/
theorem sweep_obeys_visitor {u : LinkUnit} (forest : u.IsForest) (exact : u.ops.Exact)
    (visit : Visitor σ) (state : σ) :
    ∃ erased u' last calls, u.sweep visit state = .ok (erased, u', last) ∧
      u.sweep visit.recorded (state, []) = .ok (erased, u', last, calls) ∧
      u.Swept visit state calls u' last ∧ erased + u'.opCount = u.opCount ∧
      u'.IsForest ∧ u'.ops.Exact := by
  obtain ⟨ps, h⟩ := LinkUnit.isForest_iff.mp forest
  obtain ⟨calls, last, run, records, follows⟩ := Placed.sweepList_follows
    (fun p hp => Placed.obeys (Placed.nodup_ids_of_mem h.nodup hp)) h.nodup_ids state
  have covered := LinkUnit.covered_of_exact exact
  obtain ⟨erased, u₁, hsweep, ops, rfl, swept⟩ := covered.exists_sweep h visit state
  obtain ⟨erased', u₂, hsweep', ops', rfl, swept'⟩ :=
    covered.exists_sweep h visit.recorded (state, [])
  rw [run] at hsweep swept
  rw [records, List.nil_append] at hsweep' swept'
  dsimp only at hsweep swept hsweep' swept'
  have exact₁ : ops.Exact := (LinkUnit.spent_sweep hsweep).exact exact
  have exact₂ : ops'.Exact := (LinkUnit.spent_sweep hsweep').exact exact
  -- both sweeps made the same of every slot, and count alike
  have total := swept.occupied_eq h.holds h.nodup
  have total' := swept'.occupied_eq h.holds h.nodup
  have count := swept.count
  have count' := swept'.count
  have spent : ops.Spent ops' := by
    unfold Slots.Exact at exact₁ exact₂
    constructor <;> omega
  obtain rfl := spent.eq (swept'.size.trans swept.size.symm)
    (swept.toBecomes.unique swept'.toBecomes)
  obtain rfl : erased = erased' := by omega
  refine ⟨erased, _, last, calls, hsweep, hsweep', h.swept follows swept.toBecomes, ?_,
    LinkUnit.isForest_iff.mpr ⟨_, h.unfolds_remains swept.toBecomes⟩, exact₁⟩
  have before : u.opCount = u.ops.occupied := exact
  have after : ops'.live = ops'.occupied := exact₁
  rw [before, LinkUnit.opCount, after]
  omega

def nestVisitor : Visitor Nat := fun id op calls =>
  (if id = ⟨1⟩ then .erase else .descend, op.toNode, calls + 1)

theorem sweep_obeys_visitor_nest :
    nestUnit.IsForest ∧ nestUnit.ops.Exact ∧ ∃ u' calls,
      nestUnit.sweep nestVisitor 0 = .ok (2, u', 4) ∧
      nestUnit.Swept nestVisitor 0 calls u' 4 ∧ 2 + u'.opCount = 5 := by
  have forest : nestUnit.IsForest := by decide
  have exact : nestUnit.ops.Exact := by decide
  obtain ⟨erased, u', last, calls, run, -, swept, count, -⟩ :=
    sweep_obeys_visitor forest exact nestVisitor 0
  have numbers : (nestUnit.sweep nestVisitor 0).map (fun r => (r.1, r.2.2)) = .ok (2, 4) := rfl
  rw [run] at numbers
  obtain ⟨rfl, rfl⟩ := Prod.mk.inj (Except.ok.inj numbers)
  exact ⟨forest, exact, u', calls, run, swept, count⟩

end Linkage
