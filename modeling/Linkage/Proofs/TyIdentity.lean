import Linkage.Proofs.Compatibility
import Linkage.Proofs.Sharing
import Linkage.Proofs.TyTables
/-!
What the id of a type stands for. A store is filled by interning types whose parts it has, by
renaming classes, which interns what it makes on the way, and by being made again from the list of
its types. All of this keeps parts in front of what they are parts of and every type in one place
only, so that ids are equal exactly if the types are equal when they are written out.
-/
namespace Linkage

class TyReloader (σ : Type) extends TyKeeper σ where
  reload : σ → σ

instance : TyReloader TyStore where
  reload s := .ofList s.toList

instance : TyReloader TyTable where
  reload t := .ofList t.types.toList

namespace TyKeeper

/-- One change of a store. What is interned has parts that are there. -/
inductive Step {σ : Type} [TyReloader σ] : σ → σ → Prop
  | intern (s : σ) (ty : Ty) (known : ∀ part ∈ ty.parts, part.index < size s) :
    Step s (TyKeeper.intern s ty).2
  | substitute {s s' : σ} {rename : Name → Option Name} {id new : TyId}
    (h : TyKeeper.substitute s rename id = .ok (new, s')) : Step s s'
  | reload (s : σ) : Step s (TyReloader.reload s)

def Reaches {σ : Type} [TyReloader σ] : σ → σ → Prop := Relation.ReflTransGen Step

end TyKeeper

namespace TyStore

variable {s s' : TyStore} {id new : TyId} {rename : Name → Option Name}

theorem ofList_toList (s : TyStore) : ofList s.toList = s := by
  simp [ofList, toList]

theorem substituteWithin_lt_size {fuel : Nat}
    (h : substituteWithin rename fuel s id = .ok (new, s')) : new.index < s'.size := by
  have grows := substituteWithin_grows h
  cases fuel with
  | zero => cases h
  | succ fuel =>
    simp only [substituteWithin, bind_eq_ok] at h
    obtain ⟨ty, hty, h⟩ := h
    have kept : id.index < s'.size := lt_size_of_get (grows.types id ty hty)
    split at h
    · split at h
      · split at h
        · cases h
          exact kept
        · exact lt_size_of_get (get_of_intern (Except.ok.inj h))
      · cases h
        exact kept
    · obtain ⟨⟨ids, u⟩, -, h⟩ := bind_eq_ok.mp h
      split at h
      · cases h
        exact kept
      · exact lt_size_of_get (get_of_intern (Except.ok.inj h))

namespace Ordered

theorem intern (h : s.Ordered) {ty : Ty} (known : ∀ part ∈ ty.parts, part.index < s.size)
    (interned : s.intern ty = (id, s')) : s'.Ordered := by
  unfold TyStore.intern at interned
  split at interned
  · cases interned
    exact h
  · cases interned
    intro i hi part hpart
    rw [Array.size_push] at hi
    rcases Nat.eq_or_lt_of_le (Nat.le_of_lt_succ hi) with rfl | before
    · rw [Array.getElem_push_eq] at hpart
      exact known part hpart
    · rw [Array.getElem_push_lt before] at hpart
      exact h i before part hpart

theorem substituteWithin {fuel : Nat} (h : s.Ordered)
    (hstep : TyStore.substituteWithin rename fuel s id = .ok (new, s')) : s'.Ordered := by
  induction fuel generalizing s s' id new with
  | zero => cases hstep
  | succ fuel ih =>
    simp only [TyStore.substituteWithin, bind_eq_ok] at hstep
    obtain ⟨ty, -, hstep⟩ := hstep
    split at hstep
    · split at hstep
      · split at hstep
        · cases hstep
          exact h
        · exact h.intern (fun _ hpart => absurd hpart List.not_mem_nil) (Except.ok.inj hstep)
      · cases hstep
        exact h
    · obtain ⟨⟨ids, u⟩, hids, hstep⟩ := bind_eq_ok.mp hstep
      obtain ⟨⟨-, kept⟩, each⟩ := mapAccumM_grows
        (L := fun s s' => s.Extends s' ∧ (s.Ordered → s'.Ordered))
        (R := fun u _ new => new.index < u.size) (fun s => ⟨.refl s, fun h => h⟩)
        (fun first next => ⟨first.1.trans next.1, fun h => next.2 (first.2 h)⟩)
        (fun grows inside => Nat.lt_of_lt_of_le inside grows.1.size_le)
        (fun _ _ made => ⟨⟨(substituteWithin_grows made).types, fun h => ih h made⟩,
          substituteWithin_lt_size made⟩) hids
      have ordered : u.Ordered := kept h
      split at hstep
      · cases hstep
        exact ordered
      · refine ordered.intern (fun part hpart => ?_) (Except.ok.inj hstep)
        rw [Ty.parts_withParts (length_mapAccumM hids)] at hpart
        obtain ⟨_, -, inside⟩ := forall₂_exists_left each hpart
        exact inside

end Ordered

structure Canonical (s : TyStore) : Prop where
  /-- The parts of a type are stored before it. -/
  behind : ∀ id ty, s.get id = .ok ty → ∀ part ∈ ty.parts, part.index < id.index
  /-- No type is stored twice. -/
  once : s.toList.Nodup
  inverse : ∀ ty id, s.lookup ty = some id ↔ s.get id = .ok ty
  /-- Every id that is there can be written out. -/
  written : ∀ id, id.index < s.size → ∃ t, s.tree id = .ok t
  identity : ∀ id id', id.index < s.size → id'.index < s.size → (s.tree id = s.tree id' ↔ id = id')

theorem tree_inj (ordered : s.Ordered) (nodup : s.Nodup) {id' : TyId} (h : id.index < s.size)
    (same : s.tree id = s.tree id') : id = id' := by
  obtain ⟨t, ht⟩ := exists_denotes ordered.closed ordered.acyclic h
  exact nodup.id_eq ht (denotes_iff_tree.mpr (same ▸ denotes_iff_tree.mp ht))

theorem canonical (ordered : s.Ordered) (nodup : s.Nodup) : s.Canonical where
  behind _ ty hty _ hpart := ordered.lt ⟨ty, hty, hpart⟩
  once := nodup
  inverse _ _ := nodup.lookup_iff
  written _ h := (exists_denotes ordered.closed ordered.acyclic h).imp fun _ => denotes_iff_tree.mp
  identity _ _ h _ := ⟨tree_inj ordered nodup h, congrArg s.tree⟩

theorem nodup_of_step (h : TyKeeper.Step s s') (nodup : s.Nodup) : s'.Nodup := by
  cases h with
  | intern ty known => exact nodup.intern rfl
  | substitute h => exact (Nodup.keeps _).substituteWithin h nodup
  | reload => exact (ofList_toList s).symm ▸ nodup

theorem ordered_of_step (h : TyKeeper.Step s s') (ordered : s.Ordered) : s'.Ordered := by
  cases h with
  | intern ty known => exact ordered.intern known rfl
  | substitute h => exact ordered.substituteWithin h
  | reload => exact (ofList_toList s).symm ▸ ordered

theorem grows_of_step (h : TyKeeper.Step s s') : s.Grows s' := by
  cases h with
  | intern ty known => exact grows_of_intern rfl
  | substitute h => exact substituteWithin_grows h
  | reload => exact (ofList_toList s).symm ▸ .refl s

end TyStore

namespace TyKeeper.Reaches

variable {s s' : TyStore}

theorem sound (h : Reaches TyStore.empty s) : s.Ordered ∧ s.Nodup := by
  induction h with
  | refl => exact ⟨fun i hi => absurd hi (Nat.not_lt_zero i), List.nodup_nil⟩
  | tail _ step ih => exact ⟨TyStore.ordered_of_step step ih.1, TyStore.nodup_of_step step ih.2⟩

theorem grows (h : Reaches s s') : s.Grows s' := by
  induction h with
  | refl => exact .refl s
  | tail _ step ih => exact ih.trans (TyStore.grows_of_step step)

end TyKeeper.Reaches

namespace TyTable

variable {t u : TyTable}

namespace Built

theorem store_of_step (h : t.Built) (step : TyKeeper.Step t u)
    (countable : u.store.size ≤ wordBound 32) : TyKeeper.Step t.store u.store ∧ u.Built := by
  cases step with
  | intern ty known =>
    obtain ⟨interned, built⟩ := h.store_of_intern (u := (t.intern ty).2) rfl countable
    have next := TyKeeper.Step.intern t.store ty known
    have stored : (TyKeeper.intern t.store ty).2 = (t.intern ty).2.store :=
      congrArg Prod.snd interned
    exact ⟨stored ▸ next, built⟩
  | substitute substituted =>
    obtain ⟨made, built⟩ := h.store_of_substituteWithin substituted countable
    exact ⟨.substitute made, built⟩
  | reload =>
    have same : TyReloader.reload t = t := h.ofList_eq
    have next := TyKeeper.Step.reload t.store
    have stored : TyReloader.reload t.store = t.store := TyStore.ofList_toList t.store
    rw [same]
    exact ⟨stored ▸ next, h⟩

end Built

theorem size_le_of_step (h : TyKeeper.Step t u) : t.store.size ≤ u.store.size := by
  cases h with
  | intern ty known => exact size_le_of_intern rfl
  | substitute h => exact size_le_of_substituteWithin h
  | reload => exact Nat.le_of_eq (Array.size_eq_length_toList ..)

theorem store_of_reaches (h : TyKeeper.Reaches (ofList []) t)
    (countable : t.store.size ≤ wordBound 32) :
    TyKeeper.Reaches TyStore.empty t.store ∧ t.Built := by
  induction h with
  | refl => exact ⟨.refl, .ofList []⟩
  | tail _ step ih =>
    obtain ⟨reached, built⟩ := ih ((size_le_of_step step).trans countable)
    obtain ⟨next, built'⟩ := built.store_of_step step countable
    exact ⟨reached.tail next, built'⟩

end TyTable

def OpKind.AgreesBy {α : Type} (key : TyId → α) : OpKind → OpKind → Prop
  | .moduleDef _ definition, .moduleStub stub =>
    definition.ports.map (fun p => (p.name, p.direction, key p.ty)) =
      stub.ports.map fun p => (p.name, p.direction, key p.ty)
  | .classDef definition, .classStub stub =>
    definition.params.map (key ·.ty) = stub.params.map (key ·.ty) ∧
      (∀ f ∈ stub.fields, (definition.field? f.name).map (key ·.ty) = some (key f.ty)) ∧
      ∀ f ∈ definition.fields, f.name ∈ stub.fields.map (·.name)
  | _, _ => False

theorem map_eq_iff_map_eq {α β γ : Type} {f : α → β} {g : α → γ} {xs ys : List α}
    (same : ∀ x ∈ xs, ∀ y ∈ ys, f x = f y ↔ g x = g y) :
    xs.map f = ys.map f ↔ xs.map g = ys.map g := by
  induction xs generalizing ys with
  | nil => simp
  | cons x xs ih =>
    cases ys with
    | nil => simp
    | cons y ys =>
      have head := same x List.mem_cons_self y List.mem_cons_self
      have rest := ih fun x hx y hy =>
        same x (List.mem_cons_of_mem _ hx) y (List.mem_cons_of_mem _ hy)
      rw [List.map_cons, List.map_cons, List.map_cons, List.map_cons, List.cons.injEq,
        List.cons.injEq, head, rest]

theorem PortDifference.find_eq_none_iff {definition stub : List Port} :
    find definition stub = none ↔ definition = stub := by
  constructor
  · intro h
    unfold find at h
    split at h
    · cases h
    · next count => exact eq_of_first_eq_none (not_not.mp count) h
  · rintro rfl
    simp [find, first_self]

/-- Comparing ids is comparing what they stand for, if that tells them apart. -/
theorem OpKind.agrees_iff_agreesBy {α : Type} {key : TyId → α} {definition stub : OpKind}
    (injective : ∀ id ∈ definition.types, ∀ id' ∈ stub.types, key id = key id' ↔ id = id') :
    definition.Agrees stub ↔ definition.AgreesBy key stub := by
  cases definition with
  | moduleDef visibility definition =>
    cases stub with
    | moduleStub stub =>
      have each : ∀ p ∈ definition.ports, ∀ q ∈ stub.ports,
          p = q ↔ (p.name, p.direction, key p.ty) = (q.name, q.direction, key q.ty) := by
        intro p hp q hq
        have keys := injective p.ty (List.mem_map_of_mem hp) q.ty (List.mem_map_of_mem hq)
        rw [Prod.mk.injEq, Prod.mk.injEq, keys]
        cases p
        cases q
        rw [Port.mk.injEq]
      have ports := map_eq_iff_map_eq (f := id) each
      rw [List.map_id, List.map_id] at ports
      exact PortDifference.find_eq_none_iff.trans ports
    | _ => exact Iff.rfl
  | classDef definition =>
    cases stub with
    | classStub stub =>
      refine ClassDifference.find_eq_none_iff.trans (and_congr ?_ (and_congr ?_ ?_))
      · refine map_eq_iff_map_eq fun p hp q hq => (injective p.ty ?_ q.ty ?_).symm
        · exact List.mem_append_left _ (List.mem_map_of_mem hp)
        · exact List.mem_append_left _ (List.mem_map_of_mem hq)
      · rw [List.findSome?_eq_none_iff]
        refine forall₂_congr fun field hfield => ?_
        rw [ClassDifference.ofField_eq_none]
        cases found : definition.field? field.name with
        | none => simp
        | some other =>
          have known : other ∈ definition.fields := List.mem_of_find?_eq_some found
          have keys := injective other.ty (List.mem_append_right _ (List.mem_map_of_mem known))
            field.ty (List.mem_append_right _ (List.mem_map_of_mem hfield))
          simp [keys]
      · rw [List.find?_eq_none]
        refine forall₂_congr fun field _ => ?_
        rw [Option.isNone_iff_eq_none, ClassHead.field?_eq_none_iff, not_not]
    | _ => exact Iff.rfl
  | _ => exact Iff.rfl

/-- However a store of types is filled, its ids are canonical: parts come first, no type is stored
twice, looking up a type inverts looking up an id, and ids are equal exactly if the types are equal
when they are written out, so that comparing interfaces by ids compares them by types. Whatever is
done to the store later, ids go on standing for what they do. A table of ids, up to the types that
32 bits can count, holds the same types and finds the same ids. -/
theorem type_ids_canonical {s : TyStore} (reached : TyKeeper.Reaches TyStore.empty s) :
    s.Canonical ∧
    (∀ s', TyKeeper.Reaches s s' → s.Grows s') ∧
    (∀ rename id, id.index < s.size → ∃ new s', s.substitute rename id = .ok (new, s')) ∧
    (∀ definition stub : OpKind, (∀ id ∈ definition.types ++ stub.types, id.index < s.size) →
      (definition.Agrees stub ↔ definition.AgreesBy s.tree stub)) ∧
    ∀ t : TyTable, TyKeeper.Reaches (TyTable.ofList []) t → t.store.size ≤ wordBound 32 →
      TyKeeper.Reaches TyStore.empty t.store ∧ ∀ ty, t.lookup ty = t.store.lookup ty := by
  obtain ⟨ordered, nodup⟩ := reached.sound
  have canonical := TyStore.canonical ordered nodup
  refine ⟨canonical, fun s' later => later.grows, fun rename id h => ?_,
    fun definition stub known => ?_, fun t filled countable => ?_⟩
  · obtain ⟨t, ht⟩ := canonical.written id h
    exact TyStore.exists_substitute rename (TyStore.denotes_iff_tree.mpr ht)
  · refine OpKind.agrees_iff_agreesBy fun id hid id' hid' => canonical.identity id id' ?_ ?_
    · exact known id (List.mem_append_left _ hid)
    · exact known id' (List.mem_append_right _ hid')
  · obtain ⟨stored, built⟩ := TyTable.store_of_reaches filled countable
    exact ⟨stored, fun ty => built.lookup_eq countable ty⟩

def cellTypes : TyStore := ⟨#[.instanceOf ⟨2⟩, .list ⟨0⟩, .instanceOf ⟨0⟩, .list ⟨2⟩]⟩

theorem cellTypes_reached : TyKeeper.Reaches TyStore.empty cellTypes := by
  have first : TyKeeper.Step TyStore.empty ⟨#[.instanceOf ⟨2⟩]⟩ :=
    .intern TyStore.empty (.instanceOf ⟨2⟩) nofun
  have second : TyKeeper.Step (TyStore.mk #[.instanceOf ⟨2⟩])
      ⟨#[.instanceOf ⟨2⟩, .list ⟨0⟩]⟩ :=
    .intern (TyStore.mk #[.instanceOf ⟨2⟩]) (.list ⟨0⟩) (by decide)
  have renamed : (TyStore.mk #[.instanceOf ⟨2⟩, .list ⟨0⟩]).substitute (fun _ => some ⟨0⟩) ⟨1⟩ =
      .ok (⟨3⟩, cellTypes) := rfl
  have third : TyKeeper.Step (TyStore.mk #[.instanceOf ⟨2⟩, .list ⟨0⟩]) cellTypes :=
    .substitute renamed
  exact (((Relation.ReflTransGen.single first).tail second).tail third).tail (.reload cellTypes)

theorem type_ids_canonical_cell :
    cellTypes.tree ⟨1⟩ ≠ cellTypes.tree ⟨3⟩ ∧ cellTypes.lookup (.list ⟨2⟩) = some ⟨3⟩ ∧
      ¬ (OpKind.moduleDef .local ⟨⟨1⟩, [⟨⟨4⟩, .input, ⟨1⟩⟩]⟩).AgreesBy cellTypes.tree
        (.moduleStub ⟨⟨1⟩, [⟨⟨4⟩, .input, ⟨3⟩⟩]⟩) := by
  obtain ⟨canonical, -, -, compared, -⟩ := type_ids_canonical cellTypes_reached
  refine ⟨fun same => ?_, (canonical.inverse _ _).mpr rfl, fun agree => ?_⟩
  · exact absurd ((canonical.identity ⟨1⟩ ⟨3⟩ (by decide) (by decide)).mp same) (by decide)
  · cases (compared _ _ (by decide)).mpr agree

end Linkage
