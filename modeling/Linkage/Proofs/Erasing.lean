import Linkage.Proofs.Cutting
import Linkage.Proofs.Refinement
/-!
Erasing an operation of a unit that is a forest of all its operations. The tree below it falls
vacant, the one list that held it closes up, and everything else stays: what is left is such a unit
again, so any number of erasures take each operation at most once.
-/
namespace Linkage

section

variable {α : Type} [DecidableEq α] {a : α}

theorem filter_ne_of_not_mem {xs : List α} (absent : a ∉ xs) : xs.filter (· ≠ a) = xs :=
  List.filter_eq_self.mpr fun _ hb => decide_eq_true fun same => absent (same ▸ hb)

theorem exists_filter_ne {xs : List α} (nodup : xs.Nodup) (ha : a ∈ xs) :
    ∃ front back, xs = front ++ a :: back ∧ xs.filter (· ≠ a) = front ++ back := by
  obtain ⟨front, back, rfl⟩ := List.append_of_mem ha
  obtain ⟨-, hback, apart⟩ := List.nodup_append.mp nodup
  have absent : a ∉ front := fun h => apart a h a List.mem_cons_self rfl
  refine ⟨front, back, rfl, ?_⟩
  rw [List.filter_append, List.filter_cons_of_neg (by simp), filter_ne_of_not_mem absent,
    filter_ne_of_not_mem (List.nodup_cons.mp hback).1]

theorem map_filter_ne_of_not_mem {xss : List (List α)} (absent : a ∉ xss.flatten) :
    xss.map (·.filter (· ≠ a)) = xss := by
  refine (List.map_congr_left fun xs hxs => ?_).trans (List.map_id xss)
  exact filter_ne_of_not_mem fun h => absent (List.mem_flatten.mpr ⟨xs, hxs, h⟩)

theorem exists_map_filter_ne {xss : List (List α)} (nodup : xss.flatten.Nodup)
    (ha : a ∈ xss.flatten) : ∃ lists front back lists',
      xss = lists ++ (front ++ a :: back) :: lists' ∧
        xss.map (·.filter (· ≠ a)) = lists ++ (front ++ back) :: lists' := by
  obtain ⟨xs, hxs, hmem⟩ := List.mem_flatten.mp ha
  obtain ⟨lists, lists', rfl⟩ := List.append_of_mem hxs
  rw [List.flatten_append, List.flatten_cons] at nodup
  obtain ⟨-, nodup', apart⟩ := List.nodup_append.mp nodup
  obtain ⟨distinct, -, apart'⟩ := List.nodup_append.mp nodup'
  obtain ⟨front, back, rfl, closed⟩ := exists_filter_ne distinct hmem
  have absent : a ∉ lists.flatten := fun h => apart a h a (List.mem_append_left _ hmem) rfl
  have absent' : a ∉ lists'.flatten := fun h => apart' a hmem a h rfl
  refine ⟨lists, front, back, lists', rfl, ?_⟩
  rw [List.map_append, List.map_cons, closed, map_filter_ne_of_not_mem absent,
    map_filter_ne_of_not_mem absent']

end

theorem Slots.occupied_map {α : Type} (f : α → α) (s : Slots α) :
    (s.map f).occupied = s.occupied := by
  rw [occupied, occupied, values, values, List.length_filterMap_eq_countP,
    List.length_filterMap_eq_countP, Slots.map, Array.toList_map, List.countP_map]
  refine List.countP_congr fun cell _ => ?_
  cases cell <;> rfl

namespace Placed

theorem mentions_of_each {ps : List Placed}
    (each : ∀ p ∈ ps, (p.id :: p.entries.flatMap (·.2.regions.flatten)).Perm p.ids) :
    (ps.map id ++ (ps.flatMap entries).flatMap (·.2.regions.flatten)).Perm (ps.flatMap ids) := by
  induction ps with
  | nil => exact .refl _
  | cons p rest ih =>
    obtain ⟨first, others⟩ := List.forall_mem_cons.mp each
    simp only [List.map_cons, List.flatMap_cons, List.flatMap_append]
    exact ((List.perm_append_comm_assoc _ _ _).cons p.id).trans (first.append (ih others))

/-- Of the operations of some trees each is a root or in one region of one other. -/
theorem mentions_perm (ps : List Placed) :
    (ps.map id ++ (ps.flatMap entries).flatMap (·.2.regions.flatten)).Perm (ps.flatMap ids) := by
  refine mentions_of_each fun p hp => ?_
  clear hp
  induction p using flatInduction with
  | node id root regions ih =>
    rw [entries_node, ids_node, List.flatMap_cons]
    simp only [op, ← List.map_flatten]
    exact (mentions_of_each ih).cons id

theorem id_not_mem_children {p : Placed} (nodup : p.ids.Nodup) {e : OpId × Op}
    (he : e ∈ p.entries) : p.id ∉ e.2.regions.flatten := by
  intro inside
  have once := (mentions_perm [p]).nodup_iff.mpr (by rwa [List.flatMap_singleton])
  rw [List.map_singleton, List.flatMap_singleton, List.singleton_append] at once
  exact (List.nodup_cons.mp once).1 (List.mem_flatMap.mpr ⟨e, he, inside⟩)

end Placed

namespace LinkUnit

/-- A forest of all the operations there are, with the right count of them. -/
structure WellKept (u : LinkUnit) : Prop where
  forest : u.IsForest
  reached : ∀ id op, u.ops.get? id.index = some op → u.Reaches id op
  exact : u.ops.Exact

/-- An operation is gone from the one list that held it, and what does not stand below it is
otherwise as it was. -/
inductive Unlinked (u u' : LinkUnit) (id : OpId) : Prop
  | top {front back : List OpId} (held : u.body = front ++ id :: back)
    (left : u'.body = front ++ back)
    (others : ∀ other, ¬ u.Below id other → u'.ops.get? other.index = u.ops.get? other.index)
  | nested {parent : OpId} {op : Op} {regions regions' : List (List OpId)} {front back : List OpId}
    (held : u.ops.get? parent.index = some op) (apart : ¬ u.Below id parent)
    (inside : op.regions = regions ++ (front ++ id :: back) :: regions')
    (left : u'.ops.get? parent.index =
      some { op with regions := regions ++ (front ++ back) :: regions' })
    (body : u'.body = u.body)
    (others : ∀ other, other ≠ parent → ¬ u.Below id other →
      u'.ops.get? other.index = u.ops.get? other.index)

structure Erased (u u' : LinkUnit) (root : OpId) (removed : List OpId) : Prop where
  id : u'.id = u.id
  tag : u'.tag = u.tag
  span : u'.span = u.span
  subtree : ∀ other, other ∈ removed ↔ u.Below root other
  order : ∃ front back, u.preorder = .ok (front ++ removed ++ back) ∧
    u'.preorder = .ok (front ++ back)
  nodup : removed.Nodup
  vacant : ∀ other ∈ removed, u'.ops.get? other.index = none
  unlinked : u.Unlinked u' root
  count : u'.opCount + removed.length = u.opCount
  kept : u'.WellKept

variable {u : LinkUnit} {ps : List Placed} {id : OpId} {op : Op}

theorem Unfolds.erase_eq (h : u.Unfolds ps) (exact : u.ops.Exact) (reached : u.Reaches id op) :
    ∃ (q : Placed) (front back : List (OpId × Op)) (ops : Slots Op),
      q.id = id ∧ u.ops.Holds q.entries ∧ ps.flatMap Placed.entries = front ++ q.entries ++ back ∧
      u.ops.Becomes q.entries [] ops ∧ u.ops.Spent ops ∧
      u.erase id = .ok (q.entries.length, { u with
        ops := ops.map (·.without (· = id) fun node => node)
        body := u.body.filter (· ≠ id) }) := by
  have listed := h.reaches_iff.mp reached
  obtain ⟨p, hp, hid⟩ := List.mem_flatMap.mp listed
  obtain ⟨q, front, back, rfl, split⟩ := Placed.exists_subtree (List.mem_map.mpr ⟨_, hid, rfl⟩)
  obtain ⟨before, after, rfl⟩ := List.append_of_mem hp
  have whole : (before ++ p :: after).flatMap Placed.entries =
      (before.flatMap Placed.entries ++ front) ++ q.entries ++
        (back ++ after.flatMap Placed.entries) := by
    rw [List.flatMap_append, List.flatMap_cons, split]
    simp only [List.append_assoc]
  have holds := h.holds
  have nodup := h.nodup
  rw [whole] at holds nodup
  rw [List.map_append, List.map_append] at nodup
  have holds' := (Slots.holds_append.mp (Slots.holds_append.mp holds).1).2
  obtain ⟨removed, ops, pruned⟩ := exact.exists_prune q.id
  obtain ⟨rfl, becomes, -⟩ :=
    (Slots.prune_ends holds' nodup.of_append_left.of_append_right).of_ok pruned
  refine ⟨q, _, _, ops, rfl, holds', whole, becomes, Slots.spent_of_prune pruned, ?_⟩
  have used : u.ops.contains q.id.index = true := Slots.contains_iff.mpr ⟨op, reached.1⟩
  rw [erase, if_pos used, pruned]
  simp only [ok_bind, Op.without, ne_eq, decide_not]
  rfl

structure Emptied (u u' : LinkUnit) (root : OpId) : Prop where
  body : u'.body = u.body.filter (· ≠ root)
  vacant : ∀ other, u.Below root other → u'.ops.get? other.index = none
  rest : ∀ other, ¬ u.Below root other →
    u'.ops.get? other.index = (u.ops.get? other.index).map (·.without (· = root) fun node => node)

variable {u' : LinkUnit} {root : OpId}

theorem under_iff (reached : u.Reaches root op) : u.Under (· = root) id ↔ u.Below root id := by
  constructor
  · rintro ⟨other, same, -, below⟩
    exact of_decide_eq_true same ▸ below
  · exact fun below => ⟨root, decide_eq_true rfl, ⟨op, reached⟩, below⟩

theorem Emptied.unfolds (e : u.Emptied u' root) (h : u.Unfolds ps) (reached : u.Reaches root op) :
    u'.Unfolds (ps.flatMap (Placed.cut (· = root) fun _ node => node)) where
  body := by
    rw [Placed.map_id_cut, h.body, e.body]
    simp only [ne_eq, decide_not]
  holds entry hentry := by
    obtain ⟨op, there, apart, same⟩ := h.mem_cut_iff.mp hentry
    rw [under_iff reached] at apart
    rw [e.rest _ apart, there.1, Option.map_some, same]
  nodup := h.nodup.sublist (cut_within ps _ _)

theorem Emptied.preorder (e : u.Emptied u' root) (h : u.Unfolds ps) (reached : u.Reaches root op)
    {front removed back : List OpId} (below : ∀ other, u.Below root other ↔ other ∈ removed)
    (split : (ps.flatMap Placed.entries).map (·.1) = front ++ removed ++ back) :
    u.preorder = .ok (front ++ removed ++ back) ∧ u'.preorder = .ok (front ++ back) := by
  have nodup := h.nodup
  rw [split] at nodup
  obtain ⟨hfront, -, apart⟩ := List.nodup_append.mp nodup
  obtain ⟨-, -, apart'⟩ := List.nodup_append.mp hfront
  have left : ((Placed.forestLines ps).filter (!·.passes (· = root))).map Line.id =
      ((Placed.forestLines ps).map Line.id).filter (· ∉ removed) := by
    rw [List.filter_map]
    refine congrArg _ (List.filter_congr fun l hl => ?_)
    have passes : l.passes (· = root) = true ↔ l.id ∈ removed := by
      rw [h.passes_iff hl, under_iff reached, below]
    rw [Bool.eq_iff_iff, Bool.not_eq_true', ← Bool.not_eq_true, passes]
    exact decide_eq_true_iff.symm
  rw [preorder_eq h, split, preorder_eq (e.unfolds h reached), Placed.entries_cutForest,
    List.map_map]
  refine ⟨rfl, congrArg _ (left.trans ?_)⟩
  rw [Placed.map_id_forestLines, split, List.filter_append, List.filter_append]
  have before : front.filter (· ∉ removed) = front := List.filter_eq_self.mpr fun other h =>
    decide_eq_true fun h' => apart' other h other h' rfl
  have between : removed.filter (· ∉ removed) = [] := List.filter_eq_nil_iff.mpr fun other h => by
    simp [h]
  have behind : back.filter (· ∉ removed) = back := List.filter_eq_self.mpr fun other h =>
    decide_eq_true fun h' => apart other (List.mem_append_right _ h') other h rfl
  rw [before, between, behind, List.append_nil]

theorem without_eq_self (absent : root ∉ op.regions.flatten) :
    op.without (· = root) (fun node => node) = op := by
  have same := map_filter_ne_of_not_mem absent
  simp only [ne_eq, decide_not] at same
  simp only [Op.without, same]

theorem Emptied.get?_eq (e : u.Emptied u' root) (stays : ¬ u.Below root id)
    (absent : ∀ op, u.ops.get? id.index = some op → root ∉ op.regions.flatten) :
    u'.ops.get? id.index = u.ops.get? id.index := by
  rw [e.rest id stays]
  cases held : u.ops.get? id.index with
  | none => rfl
  | some op => rw [Option.map_some, without_eq_self (absent op held)]

theorem Unfolds.nodup_mentions (h : u.Unfolds ps) :
    (u.body ++ (ps.flatMap Placed.entries).flatMap (·.2.regions.flatten)).Nodup := by
  rw [← h.body, (Placed.mentions_perm ps).nodup_iff]
  exact h.nodup_ids

/-- An operation that is not at top level is in a region of one that does not stand below it. -/
theorem Unfolds.exists_parent (h : u.Unfolds ps) {q : Placed} (holds : u.ops.Holds q.entries)
    (nodup : q.ids.Nodup) (reached : u.Reaches q.id op) (inner : q.id ∉ u.body) :
    ∃ parent outer, (parent, outer) ∈ ps.flatMap Placed.entries ∧
      q.id ∈ outer.regions.flatten ∧ ¬ u.Below q.id parent := by
  have somewhere : q.id ∈ ps.flatMap Placed.ids := by
    rw [← Placed.map_id_entries]
    exact List.mem_map.mpr ⟨_, h.reaches_iff.mp reached, rfl⟩
  rw [← (Placed.mentions_perm ps).mem_iff, h.body, List.mem_append] at somewhere
  obtain ⟨⟨parent, outer⟩, hparent, inside⟩ := List.mem_flatMap.mp (somewhere.resolve_left inner)
  refine ⟨parent, outer, hparent, inside, fun below => ?_⟩
  have held : u.ops.get? parent.index = some outer := h.holds _ hparent
  obtain ⟨⟨_, outer'⟩, hown, rfl⟩ := List.mem_map.mp ((below_iff holds).mp below)
  obtain rfl := Option.some.inj ((holds _ hown).symm.trans held)
  exact Placed.id_not_mem_children nodup hown inside

/-- Of all the lists one held the operation, once. -/
theorem Emptied.unlinked {q : Placed} (e : u.Emptied u' q.id) (h : u.Unfolds ps)
    (holds : u.ops.Holds q.entries) (nodup : q.ids.Nodup)
    (all : ∀ id op, u.ops.get? id.index = some op → u.Reaches id op) :
    u.Unlinked u' q.id := by
  obtain ⟨hbody, hnested, apart⟩ := List.nodup_append.mp h.nodup_mentions
  by_cases top : q.id ∈ u.body
  · obtain ⟨front, back, held, left⟩ := exists_filter_ne hbody top
    refine .top held (e.body.trans left) fun other stays => e.get?_eq stays fun op held inside => ?_
    have hother := h.reaches_iff.mp (all other op held)
    exact apart _ top _ (List.mem_flatMap.mpr ⟨(other, op), hother, inside⟩) rfl
  · obtain ⟨parent, op, hparent, inside, stays⟩ :=
      h.exists_parent holds nodup (all _ _ (holds _ q.mem_entries)) top
    obtain ⟨regions, front, back, regions', split, closed⟩ :=
      exists_map_filter_ne ((List.nodup_flatMap.mp hnested).1 _ hparent) inside
    have held : u.ops.get? parent.index = some op := h.holds _ hparent
    refine .nested held stays split ?_ (e.body.trans (filter_ne_of_not_mem top))
      fun other differs stays => e.get?_eq stays fun op' held' inside' => differs ?_
    · rw [e.rest parent stays, held, Option.map_some, ← closed]
      simp only [Op.without, ne_eq, decide_not]
    · have hother := h.reaches_iff.mp (all other op' held')
      exact congrArg Prod.fst (eq_of_mem_flatMap hnested hother hparent inside' inside)

theorem Emptied.contains_iff (e : u.Emptied u' root) :
    u'.ops.contains id.index = true ↔ u.ops.contains id.index = true ∧ ¬ u.Below root id := by
  by_cases below : u.Below root id
  · simp [Slots.contains, e.vacant id below, below]
  · simp [Slots.contains, e.rest id below, below]

theorem Emptied.wellKept (e : u.Emptied u' root) (kept : u.WellKept)
    (held : u.ops.get? root.index = some op) (exact : u'.ops.Exact) : u'.WellKept := by
  obtain ⟨ps, h⟩ := isForest_iff.mp kept.forest
  have reached := kept.reached _ _ held
  have unfolds := e.unfolds h reached
  refine ⟨isForest_iff.mpr ⟨_, unfolds⟩, fun id op' held' => ?_, exact⟩
  have stays : ¬ u.Below root id := fun below => by
    rw [e.vacant id below] at held'
    cases held'
  rw [e.rest id stays] at held'
  obtain ⟨op, held, rfl⟩ := Option.map_eq_some_iff.mp held'
  refine unfolds.reaches_iff.mpr (h.mem_cut_iff.mpr ⟨op, kept.reached id op held, ?_, rfl⟩)
  rwa [under_iff reached]

theorem WellKept.exists_erased (kept : u.WellKept) (held : u.ops.get? root.index = some op) :
    ∃ removed u', u.erase root = .ok (removed.length, u') ∧ u.Erased u' root removed ∧
      u.Emptied u' root := by
  obtain ⟨ps, h⟩ := isForest_iff.mp kept.forest
  have reached := kept.reached _ _ held
  obtain ⟨q, front, back, ops, rfl, holds, split, becomes, spent, erases⟩ :=
    h.erase_eq kept.exact reached
  have ids : (ps.flatMap Placed.entries).map (·.1) =
      front.map (·.1) ++ q.ids ++ back.map (·.1) := by
    rw [split, List.map_append, List.map_append]
    rfl
  have nodup : q.ids.Nodup := (ids ▸ h.nodup).of_append_left.of_append_right
  have below (other : OpId) : u.Below q.id other ↔ other ∈ q.ids := below_iff holds
  have exact := spent.exact kept.exact
  have gone := becomes.occupied_eq holds nodup
  refine ⟨q.ids, _, by rw [erases, Placed.ids, List.length_map], ?_⟩
  generalize made : ({ u with ops := _, body := _ } : LinkUnit) = u'
  have e : u.Emptied u' q.id := by
    subst made
    refine ⟨rfl, fun other hbelow => ?_, fun other stays => ?_⟩
    · rw [Slots.get?_map, becomes.vacant other ((below other).mp hbelow) List.not_mem_nil]
      rfl
    · rw [Slots.get?_map, becomes.outside other (mt (below other).mpr stays)]
  have same : u'.opCount = ops.live ∧ u'.ops.Exact := by
    subst made
    exact ⟨rfl, exact.trans (Slots.occupied_map _ ops).symm⟩
  have shell : u'.id = u.id ∧ u'.tag = u.tag ∧ u'.span = u.span := by
    subst made
    exact ⟨rfl, rfl, rfl⟩
  have count : u'.opCount + q.ids.length = u.opCount := by
    have total : u.opCount = u.ops.occupied := kept.exact
    have left : ops.live = ops.occupied := exact
    rw [Placed.ids, List.length_map, same.1, left, gone, total]
    rfl
  exact ⟨⟨shell.1, shell.2.1, shell.2.2, fun other => (below other).symm,
    ⟨_, _, e.preorder h reached below ids⟩, nodup,
    fun other hother => e.vacant other ((below other).mpr hother),
    e.unlinked h holds nodup kept.reached, count, e.wellKept kept held same.2⟩, e⟩

theorem below_live (kept : u.WellKept) (held : u.ops.contains root.index = true)
    (below : u.Below root id) : u.ops.contains id.index = true := by
  obtain ⟨ps, h⟩ := isForest_iff.mp kept.forest
  obtain ⟨op, held⟩ := Slots.contains_iff.mp held
  obtain ⟨op', reached⟩ := h.reaches_of_below (kept.reached root op held) below
  exact Slots.contains_iff.mpr ⟨op', reached.1⟩

theorem Emptied.below_iff (e : u.Emptied u' root) (kept : u'.WellKept)
    (held : u'.ops.contains id.index = true) {other : OpId} :
    u'.Below id other ↔ u.Below id other ∧ ¬ u.Below root other := by
  constructor
  · intro below
    have there := below_live kept held below
    refine ⟨?_, (e.contains_iff.mp there).2⟩
    clear there
    induction below with
    | root => exact .root
    | @nested mid child op' way held' inside ih =>
      have stays : ¬ u.Below root mid := fun gone => by
        rw [e.vacant mid gone] at held'
        cases held'
      rw [e.rest mid stays] at held'
      obtain ⟨op, held, rfl⟩ := Option.map_eq_some_iff.mp held'
      obtain ⟨region', hregion', hchild⟩ := List.mem_flatten.mp inside
      obtain ⟨region, hregion, rfl⟩ := List.mem_map.mp hregion'
      exact ih.nested held (List.mem_flatten.mpr ⟨region, hregion, (List.mem_filter.mp hchild).1⟩)
  · rintro ⟨below, stays⟩
    induction below with
    | root => exact .root
    | @nested mid child op way held inside ih =>
      have stays' : ¬ u.Below root mid := fun gone => stays (gone.nested held inside)
      refine (ih stays').nested (by rw [e.rest mid stays', held, Option.map_some]) ?_
      obtain ⟨region, hregion, hchild⟩ := List.mem_flatten.mp inside
      refine List.mem_flatten.mpr ⟨_, List.mem_map_of_mem hregion, List.mem_filter.mpr ⟨hchild, ?_⟩⟩
      have differs : child ≠ root := fun same => stays (same ▸ .root)
      simp [differs]

theorem erase_of_vacant (vacant : u.ops.contains id.index ≠ true) : u.erase id = .ok (0, u) :=
  if_neg vacant

/-- What some erasures in turn did: each took an operation that was still there, with what stood
below it then. -/
structure Taken (u u' : LinkUnit) (ids : List OpId) (removed : List (List OpId)) : Prop where
  once : removed.flatten.Nodup
  below : ∀ id, id ∈ removed.flatten ↔
    ∃ root ∈ ids, u.ops.contains root.index = true ∧ u.Below root id
  left : ∀ id : OpId, u'.ops.contains id.index = true ↔
    u.ops.contains id.index = true ∧ id ∉ removed.flatten
  count : u'.opCount + removed.flatten.length = u.opCount
  kept : u'.WellKept

theorem Emptied.taken_cons {u₁ u₂ : LinkUnit} {removed : List OpId} {rest : List OpId}
    {others : List (List OpId)} (e : u.Emptied u₁ root) (erased : u.Erased u₁ root removed)
    (held : u.ops.contains root.index = true) (taken : u₁.Taken u₂ rest others) :
    u.Taken u₂ (root :: rest) (removed :: others) where
  once := by
    rw [List.flatten_cons]
    refine List.nodup_append.mpr ⟨erased.nodup, taken.once, fun id hid other hother same => ?_⟩
    obtain ⟨root', -, held', below⟩ := (taken.below other).mp hother
    have live := (e.contains_iff.mp (below_live erased.kept held' below)).2
    exact live ((erased.subtree other).mp (same ▸ hid))
  below id := by
    rw [List.flatten_cons, List.mem_append, erased.subtree, taken.below,
      List.exists_mem_cons_iff]
    constructor
    · rintro (below | ⟨root', hroot', held', below⟩)
      · exact .inl ⟨held, below⟩
      · exact .inr ⟨root', hroot', (e.contains_iff.mp held').1,
          ((e.below_iff erased.kept held').mp below).1⟩
    · rintro (⟨-, below⟩ | ⟨root', hroot', held', below⟩)
      · exact .inl below
      · by_cases gone : u.Below root id
        · exact .inl gone
        · -- what stands below an operation that is gone is gone with it
          have stays : ¬ u.Below root root' := fun above => gone (above.trans below)
          have left := e.contains_iff.mpr ⟨held', stays⟩
          exact .inr ⟨root', hroot', left, (e.below_iff erased.kept left).mpr ⟨below, gone⟩⟩
  left id := by
    rw [taken.left, e.contains_iff, List.flatten_cons, List.mem_append, not_or, erased.subtree,
      and_assoc]
  count := by
    have first := erased.count
    have then_ := taken.count
    rw [List.flatten_cons, List.length_append]
    omega
  kept := taken.kept

theorem WellKept.taken (kept : u.WellKept) (ids : List OpId) :
    ∃ removed u', mapAccumM LinkUnit.erase u ids = .ok (removed.map List.length, u') ∧
      u.Taken u' ids removed := by
  induction ids generalizing u with
  | nil =>
    exact ⟨[], u, rfl, List.nodup_nil, fun _ => by simp, fun _ => by simp, rfl, kept⟩
  | cons root rest ih =>
    by_cases held : u.ops.contains root.index = true
    · obtain ⟨op, hop⟩ := Slots.contains_iff.mp held
      obtain ⟨removed, u₁, erases, erased, e⟩ := kept.exists_erased hop
      obtain ⟨others, u₂, run, taken⟩ := ih erased.kept
      exact ⟨removed :: others, u₂, mapAccumM_cons_eq_ok.mpr ⟨_, u₁, _, erases, run, rfl⟩,
        e.taken_cons erased held taken⟩
    · obtain ⟨others, u₂, run, taken⟩ := ih kept
      refine ⟨[] :: others, u₂,
        mapAccumM_cons_eq_ok.mpr ⟨_, u, _, erase_of_vacant held, run, rfl⟩,
        taken.once, fun id => ?_, taken.left, taken.count, taken.kept⟩
      rw [List.flatten_cons, List.nil_append, taken.below, List.exists_mem_cons_iff]
      exact (or_iff_right fun both => held both.1).symm

theorem wellKept_iff {ids : List OpId} (reads : u.preorder = .ok ids) :
    u.WellKept ↔ ids.Nodup ∧
      (∀ slot < u.ops.cells.size, u.ops.contains slot = true → ⟨slot⟩ ∈ ids) ∧ u.ops.Exact := by
  have listed {ps : List Placed} (h : u.Unfolds ps) :
      ids = (ps.flatMap Placed.entries).map (·.1) :=
    Except.ok.inj (reads.symm.trans (preorder_eq h))
  constructor
  · rintro ⟨forest, reached, exact⟩
    obtain ⟨ps, h⟩ := isForest_iff.mp forest
    refine ⟨listed h ▸ h.nodup, fun slot _ used => ?_, exact⟩
    obtain ⟨op, held⟩ := Slots.contains_iff.mp used
    rw [listed h]
    exact List.mem_map.mpr ⟨_, h.reaches_iff.mp (reached ⟨slot⟩ op held), rfl⟩
  · rintro ⟨nodup, all, exact⟩
    have forest : u.IsForest := ⟨ids, reads, nodup⟩
    obtain ⟨ps, h⟩ := isForest_iff.mp forest
    refine ⟨forest, fun ⟨slot⟩ op held => ?_, exact⟩
    have inside := all slot (Slots.lt_size_of_get? held) (Slots.contains_iff.mpr ⟨op, held⟩)
    rw [listed h] at inside
    obtain ⟨⟨_, op'⟩, he, rfl⟩ := List.mem_map.mp inside
    obtain rfl := Option.some.inj ((h.holds _ he).symm.trans held)
    exact h.reaches_iff.mpr he

instance (u : LinkUnit) : Decidable u.WellKept :=
  match reads : u.preorder with
  | .ok _ => decidable_of_iff _ (wellKept_iff reads).symm
  | .error _ => .isFalse fun ⟨⟨_, reads', _⟩, _, _⟩ => by rw [reads] at reads'; cases reads'

end LinkUnit

/-- Erasing an operation of a unit that is a forest of all its operations takes out the tree below
it and nothing else, and leaves such a unit; erasing one that is not there does nothing. Some
erasures in turn take each operation that one of them leads to, once. Every operation that goes is
counted off, and none is left uncounted. -/
theorem erase_takes_subtree {u : LinkUnit} (kept : u.WellKept) :
    (∀ id : OpId, u.ops.get? id.index = none → u.erase id = .ok (0, u)) ∧
    (∀ (id : OpId) (op : Op), u.ops.get? id.index = some op → ∃ removed u',
      u.erase id = .ok (removed.length, u') ∧ u.Erased u' id removed) ∧
    ∀ ids, ∃ removed u', mapAccumM LinkUnit.erase u ids = .ok (removed.map List.length, u') ∧
      u.Taken u' ids removed := by
  refine ⟨fun id vacant => ?_, fun id op held => ?_, kept.taken⟩
  · refine LinkUnit.erase_of_vacant fun used => ?_
    obtain ⟨op, held⟩ := Slots.contains_iff.mp used
    cases vacant.symm.trans held
  · obtain ⟨removed, u', erases, erased, -⟩ := kept.exists_erased held
    exact ⟨removed, u', erases, erased⟩

/-- A module with two operations, of which the second has one of its own, and an operation behind
it. -/
def nestUnit : LinkUnit :=
  muxUnit
    [muxOp (.generic ⟨3⟩) [] [], muxOp (.generic ⟨3⟩) [] [[⟨0⟩]], muxOp (.generic ⟨3⟩) [] [],
      muxOp (.moduleDef .local ⟨⟨0⟩, []⟩) [] [[⟨2⟩, ⟨1⟩]], muxOp (.generic ⟨3⟩) [] []]
    [⟨3⟩, ⟨4⟩]

theorem erase_takes_subtree_nest :
    nestUnit.WellKept ∧ ∃ removed u', nestUnit.erase ⟨1⟩ = .ok (2, u') ∧ removed.length = 2 ∧
      nestUnit.Erased u' ⟨1⟩ removed := by
  have kept : nestUnit.WellKept := by decide
  obtain ⟨removed, u', erases, erased⟩ := (erase_takes_subtree kept).2.1 ⟨1⟩ _ rfl
  have two : (nestUnit.erase ⟨1⟩).map Prod.fst = .ok 2 := by decide
  have count : removed.length = 2 := Except.ok.inj ((congrArg _ erases).symm.trans two)
  exact ⟨kept, removed, u', count ▸ erases, count, erased⟩

end Linkage
