import Linkage.Proofs.Passes
import Mathlib.Logic.Function.Iterate
/-!
What the passes leave of a unit of any shape. Operations may be shared or contain themselves, so
there need not be trees to tell it on. A sweep that goes through has found every operation it came
to in its slot; collecting leaves declarations at top level, and rewriting leaves nothing from which
one gets to a stub.
-/
namespace Linkage

namespace Slots

def Within (later earlier : Slots Op) : Prop :=
  ∀ slot op, later.get? slot = some op → earlier.get? slot = some op

variable {ops ops' ops'' : Slots Op} {id : OpId} {op : Op}

theorem Within.refl (ops : Slots Op) : ops.Within ops := fun _ _ h => h

theorem Within.trans (h : ops''.Within ops') (h' : ops'.Within ops) : ops''.Within ops :=
  fun slot op hop => h' slot op (h slot op hop)

theorem within_without (ops : Slots Op) (slot : Nat) : (ops.without slot).Within ops := by
  intro other op hop
  rw [get?_without] at hop
  split at hop
  · cases hop
  · exact hop

theorem get?_put_self (h : ops.get? id.index = some op) (slot : Nat) :
    (ops.put id.index op).get? slot = ops.get? slot := by
  rw [get?_put]
  split
  · next same => rw [same.1, h]
  · rfl

theorem put_put (ops : Slots Op) (slot : Nat) (old new : Op) :
    (ops.put slot old).put slot new = ops.put slot new := by
  by_cases used : ops.contains slot = true
  · have same : (ops.put slot old).contains slot = true := by
      rw [contains, get?_put, if_pos ⟨rfl, used⟩]
      rfl
    simp only [put, used, if_true] at same ⊢
    simp [same]
  · simp [put, used]

/-- These operations lead to no stub: none of those that stand is one, and what they contain is
among them. -/
def Clean (ids : OpId → Prop) (ops : Slots Op) : Prop :=
  ∀ id, ids id → ∀ op, ops.get? id.index = some op →
    op.kind.isStub = false ∧ ∀ child ∈ op.regions.flatten, ids child

/-- From this operation one does not get to a stub, in however many steps. -/
def StubFree (ops : Slots Op) (id : OpId) : Prop := ∃ ids : OpId → Prop, ids id ∧ Clean ids ops

theorem stubFree_iff : ops.StubFree id ↔ ∀ op, ops.get? id.index = some op →
    op.kind.isStub = false ∧ ∀ child ∈ op.regions.flatten, ops.StubFree child := by
  constructor
  · rintro ⟨ids, hid, clean⟩ op hop
    obtain ⟨real, inside⟩ := clean id hid op hop
    exact ⟨real, fun child hchild => ⟨ids, inside child hchild, clean⟩⟩
  · intro h
    refine ⟨fun other => other = id ∨ ops.StubFree other, .inl rfl, ?_⟩
    rintro other (rfl | ⟨ids, hid, clean⟩) op hop
    · exact ⟨(h op hop).1, fun child hchild => .inr ((h op hop).2 child hchild)⟩
    · obtain ⟨real, inside⟩ := clean other hid op hop
      exact ⟨real, fun child hchild => .inr ⟨ids, inside child hchild, clean⟩⟩

theorem StubFree.within (h : ops.StubFree id) (within : ops'.Within ops) : ops'.StubFree id := by
  obtain ⟨ids, hid, clean⟩ := h
  exact ⟨ids, hid, fun other hother op hop => clean other hother op (within _ _ hop)⟩

theorem StubFree.put {other : OpId} (real : op.kind.isStub = false)
    (inside : ∀ child ∈ op.regions.flatten, ops.StubFree child)
    (h : other = id ∨ ops.StubFree other) : (ops.put id.index op).StubFree other := by
  -- the operation itself, with all that led to no stub before
  refine ⟨fun other => other = id ∨ ops.StubFree other, h, ?_⟩
  intro other hother found hfound
  rw [get?_put] at hfound
  split at hfound
  · cases hfound
    exact ⟨real, fun child hchild => .inr (inside child hchild)⟩
  · next elsewhere =>
    rcases hother with rfl | hother
    · refine absurd ⟨rfl, ?_⟩ elsewhere
      exact contains_iff.mpr ⟨found, hfound⟩
    · obtain ⟨real', inside'⟩ := stubFree_iff.mp hother found hfound
      exact ⟨real', fun child hchild => .inr (inside' child hchild)⟩

end Slots

def Tree.StubFree (t : Tree) : Prop := ∀ n ∈ t.nodes, n.kind.isStub = false

namespace Slots

variable {ops : Slots Op}

theorem extractEach_spec {read : Slots Op → OpId → Option Tree × Slots Op} {P : Tree → Prop}
    (ops : Slots Op) (ids : List OpId) (step : ∀ now : Slots Op, now.Within ops → ∀ id ∈ ids,
      (read now id).2.Within now ∧ ∀ t, (read now id).1 = some t → P t) :
    (extractEach read ops ids).2.Within ops ∧ ∀ t ∈ (extractEach read ops ids).1, P t := by
  obtain ⟨within, each⟩ := mapAccum_grows (L := fun now later : Slots Op => later.Within now)
    (R := fun _ found => ∀ t, found = some t → P t) Within.refl (fun h h' => h'.trans h) ids
    (s := ops) fun now id hnow hid => step now hnow id hid
  refine ⟨within, fun t ht => ?_⟩
  obtain ⟨found, hfound, rfl⟩ := List.mem_filterMap.mp ht
  obtain ⟨id, -, holds⟩ := forall₂_exists_left each hfound
  exact holds t rfl

/-- Taking an operation out only takes operations out, and the tree of one that leads to no stub
has no stub. -/
theorem extractWithin_spec (fuel : Nat) (ops : Slots Op) (id : OpId) :
    (extractWithin fuel ops id).2.Within ops ∧ ∀ t, (extractWithin fuel ops id).1 = some t →
      (∃ op, ops.get? id.index = some op ∧ t.root = op.toNode) ∧
        (ops.StubFree id → t.StubFree) := by
  induction fuel generalizing ops id with
  | zero => exact ⟨.refl ops, fun t ht => by cases ht⟩
  | succ fuel ih =>
    have taken := within_without ops id.index
    cases hop : ops.get? id.index with
    | none =>
      simp only [extractWithin, hop]
      exact ⟨.refl ops, fun t ht => by cases ht⟩
    | some op =>
      obtain ⟨within, each⟩ := mapAccum_grows
        (L := fun now later : Slots Op => later.Within now)
        (R := fun _ trees => ops.StubFree id → ∀ t ∈ trees, t.StubFree)
        (f := extractEach (extractWithin fuel)) (s := ops.without id.index)
        Within.refl (fun h h' => h'.trans h) op.regions fun now region hnow hregion => by
          obtain ⟨within, trees⟩ := extractEach_spec
            (P := fun t => ops.StubFree id → t.StubFree) now region
            fun later hlater child hchild => by
              obtain ⟨within, tree⟩ := ih later child
              refine ⟨within, fun t ht clean => (tree t ht).2 ?_⟩
              have inside := (stubFree_iff.mp clean op hop).2 child
                (List.mem_flatten.mpr ⟨region, hregion, hchild⟩)
              exact inside.within (hlater.trans (hnow.trans taken))
          exact ⟨within, fun clean t ht => trees t ht clean⟩
      rw [extractWithin, hop]
      refine ⟨within.trans taken, fun t ht => ?_⟩
      cases ht
      refine ⟨⟨op, rfl, rfl⟩, fun clean n hn => ?_⟩
      rw [Tree.nodes_node] at hn
      rcases List.mem_cons.mp hn with rfl | hn
      · exact (stubFree_iff.mp clean op hop).1
      · obtain ⟨t, ht, hn⟩ := List.mem_flatMap.mp hn
        obtain ⟨trees, htrees, ht⟩ := List.mem_flatten.mp ht
        obtain ⟨region, -, holds⟩ := forall₂_exists_left each htrees
        exact holds clean t ht n hn

theorem within_of_prune {ops ops' : Slots Op} {id : OpId} {removed : Nat}
    (h : ops.prune id = .ok (removed, ops')) : ops'.Within ops := by
  have within := (extractWithin_spec ops.cells.size ops id).1
  rw [prune_eq, settle] at h
  split at h
  · cases h
    exact within
  · cases h

end Slots

theorem LinkUnit.mem_forest_spec {u : LinkUnit} {t : Tree} (h : t ∈ u.forest) :
    ∃ id ∈ u.body, (∃ op, u.ops.get? id.index = some op ∧ t.root = op.toNode) ∧
      (u.ops.StubFree id → t.StubFree) := by
  refine (Slots.extractEach_spec (P := fun t => ∃ id ∈ u.body,
    (∃ op, u.ops.get? id.index = some op ∧ t.root = op.toNode) ∧
      (u.ops.StubFree id → t.StubFree)) u.ops u.body fun now hnow id hid => ?_).2 t h
  obtain ⟨within, tree⟩ := Slots.extractWithin_spec now.cells.size now id
  refine ⟨within, fun t ht => ?_⟩
  obtain ⟨⟨op, hop, root⟩, clean⟩ := tree t ht
  exact ⟨id, hid, ⟨op, hnow _ _ hop, root⟩, fun free => clean (free.within hnow)⟩

def Slots.declarationAt (ops : Slots Op) (space : Space) (id : OpId) : Option Declaration :=
  match (ops.get? id.index).bind (·.kind.declaration?) with
  | some (found, name) => if found = space then some ⟨name, id⟩ else none
  | none => none

theorem Slots.exists_of_declarationAt {ops : Slots Op} {space : Space} {id : OpId}
    {declaration : Declaration} (h : ops.declarationAt space id = some declaration) :
    ∃ op, ops.get? id.index = some op ∧
      op.kind.declaration? = some (space, declaration.name) := by
  unfold declarationAt at h
  split at h
  · next found name declares =>
    obtain ⟨op, hop, declares⟩ := Option.bind_eq_some_iff.mp declares
    split at h
    · next same =>
      cases h
      exact ⟨op, hop, same ▸ declares⟩
    · cases h
  · cases h

namespace Sweep

theorem get_eq_ok {ops : Slots Op} {slot : Nat} {op : Op} :
    ops.get slot = .ok op ↔ ops.get? slot = some op := by
  unfold Slots.get
  cases ops.get? slot <;> simp

theorem one_note {region : Sweep Declared → List OpId → Checked (List OpId × Sweep Declared)}
    {s s' : Sweep Declared} {id : OpId} {kept : Option OpId}
    (h : one Declared.note region s id = .ok (kept, s')) :
    s'.ops.Within s.ops ∧ (∃ op, s.ops.get? id.index = some op ∧
      kept = if op.kind.declaration?.isSome then some id else none) ∧
    ∀ space, s'.state.of space = s.state.of space ++ (s.ops.declarationAt space id).toList := by
  obtain ⟨op, hop, h⟩ := bind_eq_ok.mp h
  have hop := get_eq_ok.mp hop
  have same : (s.ops.put id.index op).Within s.ops := fun slot found hfound => by
    rwa [Slots.get?_put_self hop] at hfound
  cases hdeclares : op.kind.declaration? with
  | none =>
    simp only [Declared.note_of_other hdeclares] at h
    obtain ⟨⟨removed, ops⟩, hprune, h⟩ := bind_eq_ok.mp h
    cases h
    refine ⟨(Slots.within_of_prune hprune).trans same, ⟨op, hop, by simp [hdeclares]⟩,
      fun space => ?_⟩
    simp [Slots.declarationAt, hop, hdeclares]
  | some declaration =>
    obtain ⟨found, name⟩ := declaration
    obtain ⟨d', hnote, hd'⟩ := Declared.note_of_declares hdeclares id s.state
    simp only [hnote] at h
    cases h
    refine ⟨same, ⟨op, hop, by simp [hdeclares]⟩, fun space => ?_⟩
    rw [hd']
    by_cases hspace : found = space <;> simp [Slots.declarationAt, hop, hdeclares, hspace]

theorem mapAccumM_note {region : Sweep Declared → List OpId → Checked (List OpId × Sweep Declared)}
    {s s' : Sweep Declared} {ids : List OpId} {kept : List (Option OpId)}
    (h : mapAccumM (one Declared.note region) s ids = .ok (kept, s')) :
    s'.ops.Within s.ops ∧ (∀ id ∈ ids, ∃ op, s.ops.get? id.index = some op) ∧
    (∀ id, some id ∈ kept → id ∈ ids ∧
      ∃ op, s.ops.get? id.index = some op ∧ op.kind.declaration?.isSome = true) ∧
    ∀ space, s'.state.of space =
      s.state.of space ++ ids.filterMap (s.ops.declarationAt space) := by
  induction ids generalizing s kept with
  | nil =>
    cases h
    exact ⟨.refl _, by simp, by simp, by simp⟩
  | cons id rest ih =>
    obtain ⟨first, t, others, hfirst, hothers, rfl⟩ := mapAccumM_cons_eq_ok.mp h
    obtain ⟨within, ⟨op, hop, kept⟩, noted⟩ := one_note hfirst
    obtain ⟨within', present, keeps, noted'⟩ := ih hothers
    -- what is found later on was there from the start
    have earlier : ∀ id ∈ rest, t.ops.get? id.index = s.ops.get? id.index := by
      intro id hid
      obtain ⟨op, hop⟩ := present id hid
      rw [hop, within _ _ hop]
    refine ⟨within'.trans within, fun id' hid' => ?_, fun id' hid' => ?_, fun space => ?_⟩
    · rcases List.mem_cons.mp hid' with rfl | hid'
      · exact ⟨op, hop⟩
      · exact (present id' hid').imp fun op hop => within _ _ hop
    · rcases List.mem_cons.mp hid' with rfl | hid'
      · split at kept
        · next declares =>
          cases kept
          exact ⟨List.mem_cons_self, op, hop, declares⟩
        · cases kept
      · obtain ⟨listed, op', hop', declares⟩ := keeps id' hid'
        exact ⟨List.mem_cons_of_mem id listed, op', within _ _ hop', declares⟩
    · have same : rest.filterMap (t.ops.declarationAt space) =
          rest.filterMap (s.ops.declarationAt space) :=
        List.filterMap_congr fun id hid => by
          rw [Slots.declarationAt, Slots.declarationAt, earlier id hid]
      rw [noted', noted, same, List.append_assoc]
      cases hdeclares : s.ops.declarationAt space id <;> simp [hdeclares]

end Sweep

structure Collected.From (u : LinkUnit) (c : Collected) : Prop where
  within : c.unit.ops.Within u.ops
  body : ∀ id ∈ c.unit.body, id ∈ u.body ∧
    ∃ op, u.ops.get? id.index = some op ∧ op.kind.declaration?.isSome = true
  declared : ∀ space, c.declared.of space = u.body.filterMap (u.ops.declarationAt space)
  tag : c.unit.tag = u.tag

theorem LinkUnit.collect_ok {u : LinkUnit} {c : Collected} (h : u.collect = .ok c) :
    c.From u := by
  obtain ⟨⟨debris, unit, declared⟩, hsweep, h⟩ := bind_eq_ok.mp h
  cases h
  obtain ⟨⟨body, s⟩, hlist, h⟩ := bind_eq_ok.mp hsweep
  cases h
  obtain ⟨⟨kept, s'⟩, hkept, h⟩ := bind_eq_ok.mp hlist
  cases h
  obtain ⟨within, -, keeps, noted⟩ := Sweep.mapAccumM_note hkept
  refine ⟨within, fun id hid => ?_, fun space => ?_, rfl⟩
  · exact keeps id (by simpa using hid)
  · rw [noted]
    cases space <;> rfl

namespace Slots

/-- Nothing comes to lead to a stub, and what takes the place of a declaration is that declaration,
renamed any number of times. -/
structure Cleans (s : Name → Name) (earlier later : Slots Op) : Prop where
  stubFree : ∀ id, earlier.StubFree id → later.StubFree id
  declares : ∀ slot op, later.get? slot = some op → ∃ old times, earlier.get? slot = some old ∧
    op.kind.declaration? = old.kind.declaration?.map fun e => (e.1, s^[times] e.2)

variable {s : Name → Name} {ops ops' ops'' : Slots Op} {id : OpId} {op old : Op}

theorem Cleans.refl (s : Name → Name) (ops : Slots Op) : ops.Cleans s ops :=
  ⟨fun _ h => h, fun _ op h => ⟨op, 0, h, by simp⟩⟩

theorem Cleans.trans (h : ops.Cleans s ops') (h' : ops'.Cleans s ops'') : ops.Cleans s ops'' where
  stubFree id free := h'.stubFree id (h.stubFree id free)
  declares slot op hop := by
    obtain ⟨between, times', hbetween, same'⟩ := h'.declares slot op hop
    obtain ⟨old, times, hold, same⟩ := h.declares slot between hbetween
    refine ⟨old, times' + times, hold, ?_⟩
    rw [same', same, Option.map_map]
    simp only [Function.comp_def, Function.iterate_add_apply]

theorem Within.cleans (h : ops'.Within ops) (s : Name → Name) : ops.Cleans s ops' :=
  ⟨fun _ free => free.within h, fun slot op hop => ⟨op, 0, h slot op hop, by simp⟩⟩

theorem cleans_put (op : Op) (hold : ops.get? id.index = some old) (times : Nat)
    (declares : op.kind.declaration? =
      old.kind.declaration?.map fun e => (e.1, s^[times] e.2))
    (real : op.kind.isStub = false) (inside : ∀ child ∈ op.regions.flatten, ops.StubFree child) :
    ops.Cleans s (ops.put id.index op) ∧ (ops.put id.index op).StubFree id := by
  refine ⟨⟨fun other free => .put real inside (.inr free), fun slot found hfound => ?_⟩,
    .put real inside (.inl rfl)⟩
  rw [get?_put] at hfound
  split at hfound
  · next here =>
    cases hfound
    exact ⟨old, times, here.1 ▸ hold, declares⟩
  · exact ⟨found, 0, hfound, by simp⟩

end Slots

namespace Sweep

variable {renames : Renaming} {unit : Nat} {remap : TyRemap}

def CleansEach (rename : Name → Name) (region : Sweep RewriteCounts → List OpId →
    Checked (List OpId × Sweep RewriteCounts)) : Prop :=
  ∀ s s' ids kept, region s ids = .ok (kept, s') →
    s.ops.Cleans rename s'.ops ∧ ∀ id ∈ kept, id ∈ ids ∧ s'.ops.StubFree id

theorem one_visit {region : Sweep RewriteCounts → List OpId →
      Checked (List OpId × Sweep RewriteCounts)} (each : CleansEach (renames.apply unit) region)
    {s s' : Sweep RewriteCounts} {id : OpId} {kept : Option OpId}
    (h : one (RewriteCounts.visit renames unit remap) region s id = .ok (kept, s')) :
    s.ops.Cleans (renames.apply unit) s'.ops ∧
      ∀ id', kept = some id' → id' = id ∧ s'.ops.StubFree id' := by
  obtain ⟨op, hop, h⟩ := bind_eq_ok.mp h
  have hop := get_eq_ok.mp hop
  by_cases stub : op.kind.isStub = true
  · simp only [RewriteCounts.visit, if_pos stub] at h
    obtain ⟨⟨removed, ops⟩, hprune, h⟩ := bind_eq_ok.mp h
    cases h
    have same : (s.ops.put id.index op).Within s.ops := fun slot found hfound => by
      rwa [Slots.get?_put_self hop] at hfound
    exact ⟨((Slots.within_of_prune hprune).trans same).cleans _, fun _ h => by cases h⟩
  · simp only [RewriteCounts.visit, if_neg stub, Slots.put_put] at h
    obtain ⟨⟨regions, t⟩, hregions, h⟩ := bind_eq_ok.mp h
    obtain ⟨now, hnow, h⟩ := bind_eq_ok.mp h
    have hnow := get_eq_ok.mp hnow
    cases h
    -- without its regions the operation leads nowhere
    obtain ⟨emptied, bare⟩ := Slots.cleans_put (s := renames.apply unit)
      { op.toNode.rewrite renames unit remap with regions := [] } hop 1
      (by rw [Node.rewrite_eq]; exact Node.declaration?_substitute _ _ _)
      (by rw [Node.rewrite_eq, Node.isStub_substitute]; simpa using stub) (by simp)
    obtain ⟨swept, kept⟩ := mapAccumM_grows
      (L := fun s t : Sweep RewriteCounts => s.ops.Cleans (renames.apply unit) t.ops)
      (R := fun t _ kept => ∀ id ∈ kept, t.ops.StubFree id) (fun s => .refl _ s.ops)
      (fun h h' => h.trans h') (fun h hR id hid => h.stubFree id (hR id hid))
      (fun _ _ hstep => (each _ _ _ _ hstep).imp_right fun hkept id hid =>
        (hkept id hid).2) hregions
    obtain ⟨restored, free⟩ := Slots.cleans_put { now with regions } hnow 0 (by simp)
      (Slots.stubFree_iff.mp (swept.stubFree id bare) now hnow).1 fun child hchild => by
        obtain ⟨region, hregion, hchild⟩ := List.mem_flatten.mp hchild
        obtain ⟨_, -, all⟩ := forall₂_exists_left kept hregion
        exact all child hchild
    exact ⟨(emptied.trans swept).trans restored, fun id' h => by cases h; exact ⟨rfl, free⟩⟩

theorem list_visit (fuel : Nat) :
    CleansEach (renames.apply unit) (list (RewriteCounts.visit renames unit remap) fuel) := by
  induction fuel with
  | zero => intro s s' ids kept h; cases h
  | succ fuel ih =>
    intro s s' ids kept h
    obtain ⟨⟨found, t⟩, hfound, h⟩ := bind_eq_ok.mp h
    cases h
    obtain ⟨cleans, each⟩ := mapAccumM_grows
      (L := fun s t : Sweep RewriteCounts => s.ops.Cleans (renames.apply unit) t.ops)
      (R := fun t id kept => ∀ id', kept = some id' → id' = id ∧ t.ops.StubFree id')
      (fun s => .refl _ s.ops) (fun h h' => h.trans h')
      (fun h hR id' hid' => (hR id' hid').imp_right (h.stubFree id'))
      (fun _ _ hstep => one_visit ih hstep) hfound
    refine ⟨cleans, fun id hid => ?_⟩
    obtain ⟨_, hkept, rfl⟩ := List.mem_filterMap.mp hid
    obtain ⟨id', hid', holds⟩ := forall₂_exists_left each hkept
    obtain ⟨rfl, free⟩ := holds id rfl
    exact ⟨hid', free⟩

end Sweep

/-- What is left of a unit that was collected from and rewritten are definitions without stubs,
under the names of its declarations as often as these were renamed. -/
theorem LinkUnit.definitions_of_rewrite {u u' : LinkUnit} {c : Collected} (h : c.From u)
    {unit : Nat} {renames : Renaming} {remap : TyRemap} {counts : RewriteCounts}
    (hrewrite : c.unit.rewrite unit renames remap = .ok (counts, u')) {t : Tree}
    (ht : t ∈ u'.forest) : t.root.kind.isDefinition = true ∧ t.StubFree ∧
      ∃ space times, ∃ d ∈ c.declared.of space,
        t.root.kind.declared? = some ((renames.apply unit)^[times] d.name) := by
  obtain ⟨⟨opsErased, _, _⟩, hsweep, heq⟩ := bind_eq_ok.mp hrewrite
  cases heq
  obtain ⟨⟨body, s⟩, hlist, heq⟩ := bind_eq_ok.mp hsweep
  cases heq
  obtain ⟨cleans, kept⟩ := Sweep.list_visit _ _ _ _ _ hlist
  obtain ⟨id, hid, ⟨op, hop, root⟩, free⟩ := LinkUnit.mem_forest_spec ht
  obtain ⟨hbody, stubFree⟩ := kept id hid
  obtain ⟨old, times, hold, same⟩ := cleans.declares _ _ hop
  obtain ⟨listed, first, hfirst, declares⟩ := h.body id hbody
  obtain rfl : old = first := Option.some.inj ((h.within _ _ hold).symm.trans hfirst)
  have clean := free stubFree
  obtain ⟨⟨space, name⟩, declared⟩ := Option.isSome_iff_exists.mp declares
  rw [declared] at same
  have noted : u.ops.declarationAt space id = some ⟨name, id⟩ := by
    simp [Slots.declarationAt, hfirst, declared]
  refine ⟨?_, clean, space, times, ⟨name, id⟩, ?_, ?_⟩
  · rw [OpKind.isDefinition_eq, clean _ t.root_mem_nodes, root, same]
    rfl
  · rw [h.declared]
    exact List.mem_filterMap.mpr ⟨id, listed, noted⟩
  · rw [OpKind.declared?_eq, root, same]
    rfl

end Linkage
