import Linkage.Proofs.Clearing
/-!
What a unit reaches from its body. In a unit whose operations refer to each other in any way, going
down depth first comes to every operation that is reached once, at its first visit; in a forest the
order of the first visits is the pre-order.
-/
namespace Linkage

namespace LinkUnit

/-- An operation that is there and stands below one of the body. What stands between the two is
there as well. -/
def Reaches (u : LinkUnit) (id : OpId) (op : Op) : Prop :=
  u.ops.get? id.index = some op ∧ ∃ root ∈ u.body, u.Below root id

/-- Going down depth first from some operations in turn, with some seen before, comes to others and
has seen these as well in the end, each behind those that were met before it. What was seen and
what is not there is passed over. -/
inductive Visits (u : LinkUnit) : List OpId → List OpId → List OpId → Prop
  | done (seen : List OpId) : Visits u seen [] seen
  | skip {seen rest after : List OpId} {id : OpId}
      (idle : id ∈ seen ∨ u.ops.get? id.index = none) (others : Visits u seen rest after) :
      Visits u seen (id :: rest) after
  | enter {seen rest inside after : List OpId} {id : OpId} {op : Op} (fresh : id ∉ seen)
      (held : u.ops.get? id.index = some op)
      (nested : Visits u (seen ++ [id]) op.regions.flatten inside)
      (others : Visits u inside rest after) : Visits u seen (id :: rest) after

variable {u : LinkUnit} {ps : List Placed} {seen ids rest inside after : List OpId} {id : OpId}
  {op : Op}

theorem Unfolds.reaches_iff (h : u.Unfolds ps) :
    u.Reaches id op ↔ (id, op) ∈ ps.flatMap Placed.entries := by
  constructor
  · rintro ⟨held, root, hroot, below⟩
    rw [← h.body] at hroot
    obtain ⟨p, hp, rfl⟩ := List.mem_map.mp hroot
    obtain ⟨⟨_, op'⟩, he, rfl⟩ := List.mem_map.mp ((below_iff (h.holds_of_mem hp)).mp below)
    obtain rfl := Option.some.inj ((h.holds_of_mem hp _ he).symm.trans held)
    exact List.mem_flatMap.mpr ⟨p, hp, he⟩
  · intro he
    obtain ⟨p, hp, hmem⟩ := List.mem_flatMap.mp he
    refine ⟨h.holds _ he, p.id, h.body ▸ List.mem_map_of_mem hp, ?_⟩
    exact (below_iff (h.holds_of_mem hp)).mpr (List.mem_map_of_mem hmem)

namespace Visits

theorem subset (h : u.Visits seen ids after) : seen ⊆ after := by
  induction h with
  | done => exact List.Subset.refl _
  | skip _ _ ih => exact ih
  | enter _ _ _ _ ihnested ihothers =>
    exact fun _ known => ihothers (ihnested (List.mem_append_left _ known))

theorem nodup (h : u.Visits seen ids after) (distinct : seen.Nodup) : after.Nodup := by
  induction h with
  | done => exact distinct
  | skip _ _ ih => exact ih distinct
  | @enter _ _ _ _ _ _ fresh _ _ _ ihnested ihothers =>
    exact ihothers (ihnested (List.nodup_append.mpr ⟨distinct, List.nodup_singleton _,
      fun a ha b hb same => fresh (List.mem_singleton.mp hb ▸ same ▸ ha)⟩))

theorem append (h : u.Visits seen ids inside) (h' : u.Visits inside rest after) :
    u.Visits seen (ids ++ rest) after := by
  induction h with
  | done => exact h'
  | skip idle _ ih => exact .skip idle (ih h')
  | enter fresh held nested _ _ ih => exact .enter fresh held nested (ih h')

theorem unique {other : List OpId} (h : u.Visits seen ids after) (h' : u.Visits seen ids other) :
    after = other := by
  induction h generalizing other with
  | done =>
    cases h'
    rfl
  | skip idle _ ih =>
    cases h' with
    | skip _ others => exact ih others
    | enter fresh held _ _ =>
      rcases idle with known | vacant
      · exact absurd known fresh
      · rw [vacant] at held
        cases held
  | enter fresh held _ _ ihnested ihothers =>
    cases h' with
    | skip idle _ =>
      rcases idle with known | vacant
      · exact absurd known fresh
      · rw [vacant] at held
        cases held
    | enter _ held' nested others =>
      obtain rfl := Option.some.inj (held.symm.trans held')
      obtain rfl := ihnested nested
      exact ihothers others

theorem sound (h : u.Visits seen ids after) (hid : id ∈ after) :
    id ∈ seen ∨ (∃ op, u.ops.get? id.index = some op) ∧ ∃ root ∈ ids, u.Below root id := by
  induction h with
  | done => exact .inl hid
  | skip _ _ ih =>
    rcases ih hid with known | ⟨held, root, hroot, below⟩
    · exact .inl known
    · exact .inr ⟨held, root, List.mem_cons_of_mem _ hroot, below⟩
  | @enter _ _ _ _ root op _ held _ _ ihnested ihothers =>
    rcases ihothers hid with hinside | ⟨there, other, hother, below⟩
    · rcases ihnested hinside with known | ⟨there, child, hchild, below⟩
      · rcases List.mem_append.mp known with known | itself
        · exact .inl known
        · obtain rfl := List.mem_singleton.mp itself
          exact .inr ⟨⟨op, held⟩, id, List.mem_cons_self, .root⟩
      · exact .inr ⟨there, root, List.mem_cons_self,
          (Below.root.nested held hchild).trans below⟩
    · exact .inr ⟨there, other, List.mem_cons_of_mem _ hother, below⟩

theorem mem_of_held (h : u.Visits seen ids after) (hid : id ∈ ids)
    (held : u.ops.get? id.index = some op) : id ∈ after := by
  induction h with
  | done => cases hid
  | skip idle others ih =>
    rcases List.mem_cons.mp hid with rfl | hid
    · rcases idle with known | vacant
      · exact others.subset known
      · rw [vacant] at held
        cases held
    · exact ih hid
  | enter _ _ nested others _ ih =>
    rcases List.mem_cons.mp hid with rfl | hid
    · exact others.subset (nested.subset (List.mem_append_right _ List.mem_cons_self))
    · exact ih hid

/-- With an operation that was not seen before, what is nested in it is seen as well. -/
theorem closed (h : u.Visits seen ids after) (hid : id ∈ after) (new : id ∉ seen)
    (held : u.ops.get? id.index = some op) {child : OpId} (hchild : child ∈ op.regions.flatten)
    {op' : Op} (there : u.ops.get? child.index = some op') : child ∈ after := by
  induction h with
  | done => exact absurd hid new
  | skip _ _ ih => exact ih hid new
  | @enter _ _ inside _ root _ _ held' nested others ihnested ihothers =>
    by_cases hinside : id ∈ inside
    · refine others.subset ?_
      by_cases itself : id = root
      · subst itself
        obtain rfl := Option.some.inj (held.symm.trans held')
        exact nested.mem_of_held hchild there
      · refine ihnested hinside fun known => ?_
        rcases List.mem_append.mp known with known | same
        · exact new known
        · exact itself (List.mem_singleton.mp same)
    · exact ihothers hid hinside

/-- Going down from the body one sees what is reached, and nothing else. -/
theorem mem_iff (h : u.Visits [] u.body after) : id ∈ after ↔ ∃ op, u.Reaches id op := by
  constructor
  · intro hid
    rcases h.sound hid with known | ⟨⟨op, held⟩, root, hroot, below⟩
    · cases known
    · exact ⟨op, held, root, hroot, below⟩
  · rintro ⟨op, held, root, hroot, below⟩
    induction below generalizing op with
    | root => exact h.mem_of_held hroot held
    | nested _ held' inside ih =>
      exact h.closed (ih _ held') List.not_mem_nil held' inside held

end Visits

end LinkUnit

end Linkage
