import Linkage.Proofs.TyTree
import Mathlib.Data.Fintype.EquivFin
import Mathlib.Logic.Relation
import Mathlib.Order.WellFounded
import Mathlib.Tactic.Choose
/-!
What the ids of a store stand for. In a store in which every part has its type and no type
contains itself every id has a tree, which going down as far as the store is large will find: on
the way down no type is met twice.
-/
namespace Linkage.TyStore

def treeWithin (s : TyStore) : Nat → TyId → Checked TyTree
  | 0, _ => .error .endless
  | fuel + 1, id => do
    let ty ← s.get id
    return .node ty.former (← ty.parts.mapM (s.treeWithin fuel))

def tree (s : TyStore) (id : TyId) : Checked TyTree := s.treeWithin s.depth id

/-- A tree is what an id stands for. -/
def Denotes (s : TyStore) (id : TyId) (t : TyTree) : Prop := ∃ fuel, s.treeWithin fuel id = .ok t

def Extends (s s' : TyStore) : Prop := ∀ id ty, s.get id = .ok ty → s'.get id = .ok ty

def Closed (s : TyStore) : Prop :=
  ∀ id ty, s.get id = .ok ty → ∀ part ∈ ty.parts, part.index < s.size

def PartOf (s : TyStore) (part whole : TyId) : Prop := ∃ ty, s.get whole = .ok ty ∧ part ∈ ty.parts

def Acyclic (s : TyStore) : Prop := ∀ id, ¬ Relation.TransGen s.PartOf id id

theorem Extends.refl (s : TyStore) : s.Extends s := fun _ _ h => h

theorem Extends.trans {s t u : TyStore} (h : s.Extends t) (h' : t.Extends u) : s.Extends u :=
  fun id ty hget => h' id ty (h id ty hget)

theorem extends_of_intern {s s' : TyStore} {ty : Ty} {id : TyId} (h : s.intern ty = (id, s')) :
    s.Extends s' := by
  intro other found hget
  have kept := get_intern_of_get hget ty
  rwa [h] at kept

theorem get_of_intern {s s' : TyStore} {ty : Ty} {id : TyId} (h : s.intern ty = (id, s')) :
    s'.get id = .ok ty := by
  have made := get_intern s ty
  rwa [h] at made

theorem get_eq_ok_iff {s : TyStore} {id : TyId} {ty : Ty} :
    s.get id = .ok ty ↔ s.types[id.index]? = some ty := by
  unfold get
  cases s.types[id.index]? with
  | none => simp
  | some found => simp

theorem lt_size_of_get {s : TyStore} {id : TyId} {ty : Ty} (h : s.get id = .ok ty) :
    id.index < s.size := (Array.getElem?_eq_some_iff.mp (get_eq_ok_iff.mp h)).1

theorem exists_get {s : TyStore} (id : TyId) (h : id.index < s.size) : ∃ ty, s.get id = .ok ty :=
  ⟨_, get_eq_ok_iff.mpr (Array.getElem?_eq_getElem h)⟩

theorem treeWithin_succ_eq_ok {s : TyStore} {fuel : Nat} {id : TyId} {t : TyTree} :
    s.treeWithin (fuel + 1) id = .ok t ↔ ∃ ty parts, s.get id = .ok ty ∧
      List.Forall₂ (fun part tree => s.treeWithin fuel part = .ok tree) ty.parts parts ∧
      t = .node ty.former parts := by
  simp only [treeWithin, bind_eq_ok, mapM_eq_ok]
  constructor
  · rintro ⟨ty, hty, parts, hparts, h⟩
    cases h
    exact ⟨ty, parts, hty, hparts, rfl⟩
  · rintro ⟨ty, parts, hty, hparts, rfl⟩
    exact ⟨ty, hty, parts, hparts, rfl⟩

theorem treeWithin_mono {s s' : TyStore} (hs : s.Extends s') {fuel fuel' : Nat}
    (hfuel : fuel ≤ fuel') {id : TyId} {t : TyTree} (h : s.treeWithin fuel id = .ok t) :
    s'.treeWithin fuel' id = .ok t := by
  induction fuel generalizing fuel' id t with
  | zero => cases h
  | succ fuel ih =>
    obtain ⟨ty, parts, hty, hparts, rfl⟩ := treeWithin_succ_eq_ok.mp h
    obtain ⟨more, rfl⟩ : ∃ more, fuel' = more + 1 := ⟨fuel' - 1, by omega⟩
    have hmore : fuel ≤ more := Nat.le_of_succ_le_succ hfuel
    exact treeWithin_succ_eq_ok.mpr
      ⟨ty, parts, hs id ty hty, hparts.imp fun _ _ hp => ih hmore hp, rfl⟩

namespace Denotes

variable {s s' : TyStore} {id : TyId} {t t' : TyTree}

theorem extend (h : s.Denotes id t) (hs : s.Extends s') : s'.Denotes id t := by
  obtain ⟨fuel, h⟩ := h
  exact ⟨fuel, treeWithin_mono hs (Nat.le_refl _) h⟩

theorem unique (h : s.Denotes id t) (h' : s.Denotes id t') : t = t' := by
  obtain ⟨fuel, h⟩ := h
  obtain ⟨fuel', h'⟩ := h'
  have left := treeWithin_mono (Extends.refl s) (Nat.le_max_left fuel fuel') h
  have right := treeWithin_mono (Extends.refl s) (Nat.le_max_right fuel fuel') h'
  exact Except.ok.inj (left.symm.trans right)

theorem lt_size (h : s.Denotes id t) : id.index < s.size := by
  obtain ⟨fuel, h⟩ := h
  cases fuel with
  | zero => cases h
  | succ fuel =>
    obtain ⟨ty, _, hty, _⟩ := treeWithin_succ_eq_ok.mp h
    exact lt_size_of_get hty

end Denotes

theorem exists_fuel {s : TyStore} {ids : List TyId} {ts : List TyTree}
    (h : List.Forall₂ s.Denotes ids ts) :
    ∃ fuel, List.Forall₂ (fun id t => s.treeWithin fuel id = .ok t) ids ts := by
  induction h with
  | nil => exact ⟨0, .nil⟩
  | cons head _ ih =>
    obtain ⟨fuel, hhead⟩ := head
    obtain ⟨fuel', hrest⟩ := ih
    refine ⟨max fuel fuel', .cons ?_ ?_⟩
    · exact treeWithin_mono (Extends.refl s) (Nat.le_max_left _ _) hhead
    · exact hrest.imp fun _ _ h => treeWithin_mono (Extends.refl s) (Nat.le_max_right _ _) h

theorem denotes_node_iff {s : TyStore} {id : TyId} {former : Former} {parts : List TyTree} :
    s.Denotes id (.node former parts) ↔
      ∃ ty, s.get id = .ok ty ∧ ty.former = former ∧ List.Forall₂ s.Denotes ty.parts parts := by
  constructor
  · rintro ⟨fuel, h⟩
    cases fuel with
    | zero => cases h
    | succ fuel =>
      obtain ⟨ty, found, hty, hparts, heq⟩ := treeWithin_succ_eq_ok.mp h
      cases heq
      exact ⟨ty, hty, rfl, hparts.imp fun _ _ hp => ⟨fuel, hp⟩⟩
  · rintro ⟨ty, hty, rfl, hparts⟩
    obtain ⟨fuel, hfuel⟩ := exists_fuel hparts
    exact ⟨fuel + 1, treeWithin_succ_eq_ok.mpr ⟨ty, parts, hty, hfuel, rfl⟩⟩

theorem treeWithin_height {s : TyStore} {id : TyId} {t : TyTree} (h : s.Denotes id t) :
    s.treeWithin t.height id = .ok t := by
  induction t generalizing id with
  | node former parts ih =>
    obtain ⟨ty, hty, rfl, hparts⟩ := denotes_node_iff.mp h
    refine treeWithin_succ_eq_ok.mpr ⟨ty, parts, hty, ?_, rfl⟩
    exact forall₂_imp_mem hparts fun part t ht hpart =>
      treeWithin_mono (Extends.refl s) (TyTree.height_le_heightOfAll ht) (ih t ht hpart)

theorem exists_denotes_height {s : TyStore} {id : TyId} {t : TyTree} (h : s.Denotes id t)
    {height : Nat} (positive : 0 < height) (low : height ≤ t.height) :
    ∃ id' t', s.Denotes id' t' ∧ t'.height = height := by
  induction t generalizing id with
  | node former parts ih =>
    rcases Nat.eq_or_lt_of_le low with heq | hlt
    · exact ⟨id, .node former parts, h, heq.symm⟩
    · have below : height ≤ TyTree.heightOfAll parts := Nat.le_of_lt_succ hlt
      obtain ⟨t, ht, highest⟩ :=
        TyTree.exists_mem_heightOfAll (Nat.lt_of_lt_of_le positive below)
      obtain ⟨ty, _, _, hparts⟩ := denotes_node_iff.mp h
      obtain ⟨i, hi⟩ := List.getElem?_of_mem ht
      obtain ⟨hlt', rfl⟩ := List.getElem?_eq_some_iff.mp hi
      have hlen := hparts.length_eq
      exact ih _ ht (hparts.get (hlen ▸ hlt') hlt') (highest ▸ below)

/-- A tree is at most as high as the store is large: trees of different heights have different
ids, and there is one of each smaller height. -/
theorem Denotes.height_le_size {s : TyStore} {id : TyId} {t : TyTree} (h : s.Denotes id t) :
    t.height ≤ s.size := by
  have levels : ∀ k : Fin t.height, ∃ id' t', s.Denotes id' t' ∧ t'.height = k.val + 1 :=
    fun k => exists_denotes_height h (Nat.succ_pos _) k.isLt
  choose ids trees denotes heights using levels
  let place : Fin t.height → Fin s.size := fun k => ⟨(ids k).index, (denotes k).lt_size⟩
  have injective : Function.Injective place := by
    intro k k' hkk'
    have same : ids k = ids k' := by
      have hindex : (ids k).index = (ids k').index := congrArg Fin.val hkk'
      cases hk : ids k
      cases hk' : ids k'
      rw [hk, hk'] at hindex
      exact congrArg TyId.mk hindex
    have trees_eq : trees k = trees k' := (denotes k).unique (same ▸ denotes k')
    have := heights k
    have := heights k'
    rw [trees_eq] at *
    omega
  simpa using Fintype.card_le_of_injective place injective

theorem denotes_iff_tree {s : TyStore} {id : TyId} {t : TyTree} :
    s.Denotes id t ↔ s.tree id = .ok t := by
  constructor
  · intro h
    have enough : t.height ≤ s.depth := Nat.le_succ_of_le h.height_le_size
    exact treeWithin_mono (Extends.refl s) enough (treeWithin_height h)
  · intro h
    exact ⟨s.depth, h⟩

theorem exists_denotes {s : TyStore} (closed : s.Closed) (acyclic : s.Acyclic) {id : TyId}
    (h : id.index < s.size) : ∃ t, s.Denotes id t := by
  let below : Fin s.size → Fin s.size → Prop :=
    fun i j => Relation.TransGen s.PartOf ⟨i.val⟩ ⟨j.val⟩
  have : IsTrans _ below := ⟨fun _ _ _ => Relation.TransGen.trans⟩
  have : Std.Irrefl below := ⟨fun i => acyclic ⟨i.val⟩⟩
  have wf : WellFounded below := Finite.wellFounded_of_trans_of_irrefl below
  suffices all : ∀ i : Fin s.size, ∃ t, s.Denotes ⟨i.val⟩ t from all ⟨id.index, h⟩
  intro i
  induction i using wf.induction with
  | _ i ih =>
    obtain ⟨ty, hty⟩ := exists_get ⟨i.val⟩ i.isLt
    have parts : ∀ part ∈ ty.parts, ∃ t, s.Denotes part t := fun part hpart =>
      ih ⟨part.index, closed _ ty hty part hpart⟩ (.single ⟨ty, hty, hpart⟩)
    obtain ⟨ts, hts⟩ := exists_forall₂ parts
    exact ⟨.node ty.former ts, denotes_node_iff.mpr ⟨ty, hty, rfl, hts⟩⟩

/-- Every type stands behind its parts, as in a store filled by interning. -/
def Ordered (s : TyStore) : Prop :=
  ∀ i, ∀ h : i < s.types.size, ∀ part ∈ s.types[i].parts, part.index < i

instance (s : TyStore) : Decidable s.Ordered :=
  inferInstanceAs (Decidable (∀ i, ∀ h : i < s.types.size, ∀ part ∈ s.types[i].parts,
    part.index < i))

theorem Ordered.lt {s : TyStore} (h : s.Ordered) {id part : TyId} (hpart : s.PartOf part id) :
    part.index < id.index := by
  obtain ⟨ty, hty, hmem⟩ := hpart
  obtain ⟨hlt, rfl⟩ := Array.getElem?_eq_some_iff.mp (get_eq_ok_iff.mp hty)
  exact h id.index hlt part hmem

theorem Ordered.closed {s : TyStore} (h : s.Ordered) : s.Closed := fun _ ty hty _ hpart =>
  Nat.lt_trans (h.lt ⟨ty, hty, hpart⟩) (lt_size_of_get hty)

theorem Ordered.acyclic {s : TyStore} (h : s.Ordered) : s.Acyclic := by
  have descends : ∀ id part, Relation.TransGen s.PartOf part id → part.index < id.index := by
    intro id part hpart
    induction hpart with
    | single hlast => exact h.lt hlast
    | tail _ hlast ih => exact Nat.lt_trans ih (h.lt hlast)
  exact fun id hid => Nat.lt_irrefl _ (descends id id hid)

end Linkage.TyStore
