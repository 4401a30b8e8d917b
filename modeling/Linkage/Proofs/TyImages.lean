import Linkage.Proofs.Descents
import Linkage.Proofs.TyTables
/-!
What renaming classes makes of a type that is there, told on trees: the id one gets stands for the
tree with every class renamed once, and it is the old id exactly if the tree stays the same. The
order in which the types are stored does not matter, nor do types that are stored twice.
-/
namespace Linkage

namespace TyStore

theorem extends_iff {s s' : TyStore} : s.Extends s' ↔ s.toList <+: s'.toList := by
  simp only [Extends, get_eq_ok_iff, toList, List.prefix_iff_getElem?]
  constructor
  · intro kept i h
    have there := kept ⟨i⟩ s.types[i] (Array.getElem?_eq_getElem h)
    rwa [← Array.getElem?_toList] at there
  · intro front id ty hty
    obtain ⟨h, rfl⟩ := Array.getElem?_eq_some_iff.mp hty
    rw [← Array.getElem?_toList]
    exact front id.index h

theorem closed_of_denoted {s : TyStore} (denoted : ∀ id ∈ s.ids, ∃ t, s.Denotes id t) :
    s.Closed := by
  intro id ty hty part hpart
  obtain ⟨t, ht⟩ := denoted id (mem_ids (lt_size_of_get hty))
  obtain ⟨t', ht', -⟩ := PartOf.denotes ⟨ty, hty, hpart⟩ ht
  exact ht'.lt_size

theorem acyclic_of_denoted {s : TyStore} (denoted : ∀ id ∈ s.ids, ∃ t, s.Denotes id t) :
    s.Acyclic := by
  intro id cycle
  obtain ⟨_, ⟨ty, hty, -⟩, -⟩ := Relation.TransGen.head'_iff.mp (Relation.transGen_swap.mpr cycle)
  obtain ⟨t, ht⟩ := denoted id (mem_ids (lt_size_of_get hty))
  obtain ⟨t', ht', lower⟩ := denotes_of_transGen cycle ht
  exact Nat.lt_irrefl _ (ht.unique ht' ▸ lower)

/-- The trees of an id before and of its successor after a renaming: every class is renamed once,
and the id is kept exactly if no class of the tree changes. -/
def Image (rename : Name → Option Name) (s s' : TyStore) (id new : TyId) : Prop :=
  ∃ t, s.tree id = .ok t ∧ s'.tree new = .ok (t.rename (Name.under rename)) ∧
    (new = id ↔ ∀ name ∈ t.classes, name.under rename = name)

namespace Substituted

variable {rename : Name → Option Name} {s s' : TyStore} {id new : TyId}

theorem grows (h : Substituted rename s s' id new) : s.Grows s' := by
  cases h with
  | onTheWay before step after => exact (before.trans (substituteWithin_grows step)).trans after
  | unchanged _ grows => exact grows

theorem image (h : Substituted rename s s' id new) (denoted : ∃ t, s.Denotes id t) :
    s.Image rename s' id new := by
  obtain ⟨t, ht⟩ := denoted
  refine ⟨t, denotes_iff_tree.mp ht, denotes_iff_tree.mp (h.denotes ht), ?_, h.eq_self ht⟩
  rintro rfl
  exact TyTree.rename_eq_self_iff.mp ((h.denotes ht).unique (ht.extend h.grows.types))

end Substituted

end TyStore

namespace TyRemap

theorem build_eq_empty {rename : Name → Option Name} {ids : List TyId} {now : TyStore}
    (each : ∀ id ∈ ids, now.substitute rename id = .ok (id, now)) :
    build rename ids now = .ok (.empty, now) := by
  have pairs : mapAccumM (fun types id =>
      TyStore.substitute types rename id >>= fun out => .ok ((id, out.1), out.2)) now ids =
        .ok (ids.map fun id => (id, id), now) := by
    induction ids with
    | nil => rfl
    | cons id rest ih =>
      have others := ih fun id hid => each id (List.mem_cons_of_mem _ hid)
      refine mapAccumM_cons_eq_ok.mpr ⟨(id, id), now, _, ?_, others, rfl⟩
      rw [each id List.mem_cons_self, ok_bind]
  refine bind_eq_ok.mpr ⟨_, pairs, ?_⟩
  simp [empty, pure, Except.pure]

theorem build_of_nothing {rename : Name → Option Name} (nothing : ∀ name, rename name = none)
    {s now : TyStore} (denoted : ∀ id ∈ s.ids, ∃ t, s.Denotes id t) (kept : s.Extends now) :
    build rename s.ids now = .ok (.empty, now) := by
  refine build_eq_empty fun id hid => ?_
  obtain ⟨t, ht⟩ := denoted id hid
  have found := TyStore.denotes_iff_tree.mp (ht.extend kept)
  exact TyStore.substituteWithin_eq_self found fun name _ => by simp [Name.under, nothing]

theorem build_keys {rename : Name → Option Name} {ids : List TyId} {s s' : TyStore}
    {remap : TyRemap} (h : build rename ids s = .ok (remap, s')) :
    ∀ pair ∈ remap.pairs, pair.1 ∈ ids := by
  simp only [build, bind_eq_ok] at h
  obtain ⟨⟨pairs, u⟩, hpairs, h⟩ := h
  cases h
  have keys := (mapAccumM_grows (L := fun _ _ => True)
    (R := fun _ id (pair : TyId × TyId) => pair.1 = id) (fun _ => trivial) (fun _ _ => trivial)
    (fun _ hR => hR) (fun _ _ hstep => by
      obtain ⟨out, -, hpair⟩ := bind_eq_ok.mp hstep
      cases hpair
      exact ⟨trivial, rfl⟩) hpairs).2
  intro pair hpair
  obtain ⟨id, hid, rfl⟩ := forall₂_exists_left keys (List.mem_filter.mp hpair).1
  exact hid

/-- Every unit gets a table for the types of the store, and an empty one if it is passed over. -/
theorem buildAll_tables {types types' : TyStore} {count : Nat} {renames : Renaming}
    {remaps : List TyRemap} (h : buildAll types count renames = .ok (remaps, types')) :
    List.Forall₂ (fun unit (remap : TyRemap) => (∀ pair ∈ remap.pairs, pair.1 ∈ types.ids) ∧
      (renames.touches unit = false → remap = .empty)) (List.range count) remaps := by
  refine (mapAccumM_grows (L := fun _ _ => True)
    (R := fun _ unit (remap : TyRemap) => (∀ pair ∈ remap.pairs, pair.1 ∈ types.ids) ∧
      (renames.touches unit = false → remap = .empty))
    (fun _ => trivial) (fun _ _ => trivial) (fun _ hR => hR) ?_ h).2
  intro _ _ unit remap _ _ hstep
  refine ⟨trivial, ?_⟩
  split at hstep
  · next touched =>
    exact ⟨build_keys hstep, fun untouched => absurd touched (Bool.not_eq_true _ ▸ untouched)⟩
  · cases hstep
    exact ⟨fun _ hpair => absurd hpair List.not_mem_nil, fun _ => rfl⟩

theorem exists_images {s : TyStore} (closed : s.Closed) (acyclic : s.Acyclic) (count : Nat)
    (renames : Renaming) :
    ∃ remaps s', buildAll s count renames = .ok (remaps, s') ∧ remaps.length = count ∧
      s.Grows s' ∧ ∀ (unit : Nat) (remap : TyRemap), remaps[unit]? = some remap →
        (∀ id, id.index < s.size → s.Image (renames.get? unit) s' id (remap.apply id)) ∧
        (∀ pair ∈ remap.pairs, pair.1.index < s.size) ∧
        (renames.touches unit = false → remap = .empty) := by
  have denoted := TyStore.denoted_ids closed acyclic
  obtain ⟨remaps, s', hremaps⟩ := exists_buildAll s denoted count renames
  obtain ⟨grows, each⟩ := buildAll_substituted hremaps
  have tables := buildAll_tables hremaps
  have length : remaps.length = count := each.length_eq.symm.trans List.length_range
  refine ⟨remaps, s', hremaps, length, grows, fun unit remap hunit => ?_⟩
  have hrange : (List.range count)[unit]? = some unit := by
    have inside := (List.getElem?_eq_some_iff.mp hunit).1
    exact List.getElem?_range (length ▸ inside)
  obtain ⟨_, hremap, substituted⟩ := forall₂_getElem? each hrange
  obtain rfl := Option.some.inj (hunit.symm.trans hremap)
  obtain ⟨_, hremap, keys, skipped⟩ := forall₂_getElem? tables hrange
  obtain rfl := Option.some.inj (hunit.symm.trans hremap)
  refine ⟨fun id hid => ?_, fun pair hpair => ?_, skipped⟩
  · exact (substituted id (TyStore.mem_ids hid)).image (denoted id (TyStore.mem_ids hid))
  · obtain ⟨i, hi, same⟩ := List.mem_map.mp (keys pair hpair)
    exact same ▸ List.mem_range.mp hi

end TyRemap

/-- Renaming the classes of a type is one simultaneous substitution in its tree, and no type that
was there changes. The tables of the units do this for every type of the store, and a unit that is
passed over would have been given an empty table in any store that has those types. Where 32 bits
can count the types, a store that finds ids in a table answers all this the same. -/
theorem types_rename_as_trees {s : TyStore} (closed : s.Closed) (acyclic : s.Acyclic) :
    (∀ (rename : Name → Option Name) (id : TyId), id.index < s.size →
      ∃ new s', s.substitute rename id = .ok (new, s') ∧ s.Image rename s' id new ∧
        s.toList <+: s'.toList ∧ ∀ ty found, s.lookup ty = some found → s'.lookup ty = some found) ∧
    (∀ (count : Nat) (renames : Renaming),
      ∃ remaps s', TyRemap.buildAll s count renames = .ok (remaps, s') ∧ remaps.length = count ∧
        s.toList <+: s'.toList ∧
        (∀ ty found, s.lookup ty = some found → s'.lookup ty = some found) ∧
        ∀ unit remap, remaps[unit]? = some remap →
          (∀ id, id.index < s.size → s.Image (renames.get? unit) s' id (remap.apply id)) ∧
          (renames.touches unit = false → remap = .empty ∧
            ∀ now : TyStore, s.toList <+: now.toList →
              TyRemap.build (renames.get? unit) s.ids now = .ok (.empty, now))) ∧
    ∀ t : TyTable, t.Built → t.store = s → ∀ requests replies s',
      TyKeeper.answers s requests = .ok (replies, s') → s'.size ≤ wordBound 32 →
        ∃ u, TyKeeper.answers t requests = .ok (replies, u) ∧ u.Built ∧ u.store = s' := by
  have denoted := TyStore.denoted_ids closed acyclic
  refine ⟨?_, ?_, ?_⟩
  · intro rename id hid
    obtain ⟨t, ht⟩ := denoted id (TyStore.mem_ids hid)
    obtain ⟨new, s', hnew⟩ := TyStore.exists_substitute rename ht
    have grows : s.Grows s' := TyStore.substituteWithin_grows hnew
    have substituted : TyStore.Substituted rename s s' id new :=
      .onTheWay (.refl s) hnew (.refl s')
    exact ⟨new, s', hnew, substituted.image ⟨t, ht⟩, TyStore.extends_iff.mp grows.types, grows.ids⟩
  · intro count renames
    obtain ⟨remaps, s', hremaps, length, grows, each⟩ :=
      TyRemap.exists_images closed acyclic count renames
    refine ⟨remaps, s', hremaps, length, TyStore.extends_iff.mp grows.types, grows.ids, ?_⟩
    intro unit remap hunit
    obtain ⟨images, -, skipped⟩ := each unit remap hunit
    refine ⟨images, fun untouched => ⟨skipped untouched, fun now front => ?_⟩⟩
    have nothing := Renaming.get?_eq_none_of_not_touches (Bool.not_eq_true _ ▸ untouched)
    exact TyRemap.build_of_nothing nothing denoted (TyStore.extends_iff.mpr front)
  · rintro t built rfl requests replies s' went countable
    exact built.answers_store went countable

/-- A list in front of the class it is a list of, which is stored twice. -/
def twinTypes : TyStore :=
  ⟨#[.list ⟨2⟩, .instanceOf ⟨0⟩, .instanceOf ⟨0⟩, .tuple [⟨0⟩, ⟨1⟩], .instanceOf ⟨1⟩]⟩

def twinSwap : Renaming := ⟨[(⟨0, ⟨0⟩⟩, ⟨1⟩), (⟨0, ⟨1⟩⟩, ⟨0⟩)]⟩

theorem twinTypes_denoted : ∀ id ∈ twinTypes.ids, ∃ t, twinTypes.Denotes id t := by
  have found : ∀ id ∈ twinTypes.ids, (twinTypes.tree id).toOption.isSome = true := by decide
  intro id hid
  obtain ⟨t, ht⟩ := Option.isSome_iff_exists.mp (found id hid)
  exact ⟨t, TyStore.denotes_iff_tree.mpr (toOption_eq_some.mp ht)⟩

theorem types_rename_as_trees_twin :
    twinTypes.Closed ∧ twinTypes.Acyclic ∧ ¬ twinTypes.Ordered ∧
      (∃ new s', twinTypes.substitute (twinSwap.get? 0) ⟨3⟩ =
        .ok (new, s') ∧ new ≠ ⟨3⟩ ∧ twinTypes.toList <+: s'.toList) ∧
      ∃ remaps s', TyRemap.buildAll twinTypes 2 twinSwap =
        .ok (remaps, s') ∧ remaps.length = 2 ∧ remaps[1]? = some .empty := by
  have closed := TyStore.closed_of_denoted twinTypes_denoted
  have acyclic := TyStore.acyclic_of_denoted twinTypes_denoted
  obtain ⟨substitutes, builds, -⟩ := types_rename_as_trees closed acyclic
  refine ⟨closed, acyclic, by decide, ?_, ?_⟩
  · obtain ⟨new, s', h, ⟨t, ht, -, same⟩, front, -⟩ := substitutes
      (twinSwap.get? 0) ⟨3⟩ (by decide)
    refine ⟨new, s', h, fun unchanged => ?_, front⟩
    cases ht
    exact absurd (same.mp unchanged ⟨0⟩ (by decide)) (by decide)
  · obtain ⟨remaps, s', h, length, -, -, each⟩ := builds 2 twinSwap
    have last := List.getElem?_eq_getElem (l := remaps) (i := 1) (by omega)
    exact ⟨remaps, s', h, length, last.trans (congrArg some ((each 1 _ last).2 (by decide)).1)⟩

end Linkage
