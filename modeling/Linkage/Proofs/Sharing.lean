import Linkage.Proofs.TySubstitution
/-!
Stores in which no type stands twice. Interning keeps them so, and in such a store equal trees have
equal ids: comparing ids, as the check of a linked unit does, is comparing types.
-/
namespace Linkage

theorem Ty.eq_of_former {ty ty' : Ty} (former : ty.former = ty'.former)
    (parts : ty.parts = ty'.parts) : ty = ty' := by
  cases ty <;> cases ty' <;> simp_all [Ty.former, Ty.parts]

namespace TyStore

def Nodup (s : TyStore) : Prop := s.toList.Nodup

instance (s : TyStore) : Decidable s.Nodup := inferInstanceAs (Decidable s.toList.Nodup)

variable {s s' : TyStore} {id id' : TyId} {ty : Ty}

namespace Nodup

theorem eq_of_get (h : s.Nodup) (hid : s.get id = .ok ty) (hid' : s.get id' = .ok ty) :
    id = id' := by
  rw [get_eq_ok_iff, ← Array.getElem?_toList] at hid hid'
  obtain ⟨hlt, -⟩ := List.getElem?_eq_some_iff.mp hid
  have index : id.index = id'.index := (List.getElem?_inj hlt h).mp (hid.trans hid'.symm)
  cases id
  cases id'
  exact congrArg TyId.mk index

theorem lookup_iff (h : s.Nodup) : s.lookup ty = some id ↔ s.get id = .ok ty := by
  constructor
  · exact get_of_lookup
  · intro hid
    cases found : s.lookup ty with
    | some other => rw [h.eq_of_get (get_of_lookup found) hid]
    | none =>
      have absent := List.find?_eq_none.mp found id
        (List.mem_reverse.mpr (mem_ids (lt_size_of_get hid)))
      simp [get_eq_ok_iff.mp hid] at absent

theorem intern (h : s.Nodup) (hintern : s.intern ty = (id, s')) : s'.Nodup := by
  unfold TyStore.intern at hintern
  split at hintern
  · cases hintern
    exact h
  · next absent =>
    cases hintern
    have fresh : ty ∉ s.toList := by
      intro hmem
      obtain ⟨i, hi⟩ := List.getElem?_of_mem hmem
      have stored : s.get ⟨i⟩ = .ok ty :=
        get_eq_ok_iff.mpr (by rwa [toList, Array.getElem?_toList] at hi)
      rw [h.lookup_iff.mpr stored] at absent
      cases absent
    have pushed : (TyStore.mk (s.types.push ty)).toList = s.toList ++ [ty] := by simp [toList]
    rw [Nodup, pushed]
    exact List.Nodup.append h (List.nodup_singleton ty) (List.disjoint_singleton.mpr fresh)

theorem keeps (rename : Name → Option Name) : Keeps Nodup rename :=
  ⟨fun _ nodup => nodup.intern rfl, fun _ _ nodup _ => nodup.intern rfl⟩

theorem buildAll {count : Nat} {renames : Renaming} {remaps : List TyRemap}
    (hbuild : TyRemap.buildAll s count renames = .ok (remaps, s')) (h : s.Nodup) : s'.Nodup :=
  Keeps.buildAll (fun unit => keeps (renames.get? unit)) hbuild h

theorem id_eq (h : s.Nodup) {t : TyTree} (hid : s.Denotes id t) (hid' : s.Denotes id' t) :
    id = id' := by
  induction t generalizing id id' with
  | node former parts ih =>
    obtain ⟨ty, hty, hformer, hparts⟩ := denotes_node_iff.mp hid
    obtain ⟨ty', hty', hformer', hparts'⟩ := denotes_node_iff.mp hid'
    have single : List.Forall₂ (fun part t => ∀ other, s.Denotes other t → part = other)
        ty.parts parts :=
      forall₂_imp_mem hparts fun _ t ht hpart _ hother => ih t ht hpart hother
    have same : ty.parts = ty'.parts := by
      rw [← List.forall₂_eq_eq_eq]
      exact forall₂_comp_mem single hparts'.flip fun _ _ _ other only hother => only other hother
    obtain rfl := Ty.eq_of_former (hformer.trans hformer'.symm) same
    exact h.eq_of_get hty hty'

theorem lookup_instanceOf (h : s.Nodup) {name : Name} :
    s.lookup (.instanceOf name) = some id ↔ s.Denotes id (.node (.instanceOf name) []) := by
  rw [h.lookup_iff]
  constructor
  · exact denotes_instanceOf
  · intro hid
    obtain ⟨ty, hty, hformer, hparts⟩ := denotes_node_iff.mp hid
    cases ty <;> cases hformer
    exact hty

theorem lookup_rename {t : TyTree} {f : Name → Name} {name : Name} (h : s'.Nodup)
    (hid : s.lookup (.instanceOf name) = some id) (ht : s.Denotes id t)
    (ht' : s'.Denotes id' (t.rename f)) : s'.lookup (.instanceOf (f name)) = some id' := by
  obtain rfl := ht.unique (denotes_instanceOf (get_of_lookup hid))
  rw [TyTree.rename_node] at ht'
  exact h.lookup_instanceOf.mpr ht'

end Nodup

end TyStore

end Linkage
