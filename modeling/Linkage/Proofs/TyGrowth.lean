import Linkage.Proofs.Denotation
/-!
A store that grows. Interning adds a type only if no id stands for it yet, so the types that are
there keep their ids, and looking a type up goes on giving the same one.
-/
namespace Linkage.TyStore

/-- One store has what another has: every id its type, and every type its id. -/
structure Grows (s s' : TyStore) : Prop where
  types : s.Extends s'
  ids : ∀ ty id, s.lookup ty = some id → s'.lookup ty = some id

theorem Grows.refl (s : TyStore) : s.Grows s := ⟨.refl s, fun _ _ h => h⟩

theorem Grows.trans {s t u : TyStore} (h : s.Grows t) (h' : t.Grows u) : s.Grows u :=
  ⟨h.types.trans h'.types, fun ty id hid => h'.ids ty id (h.ids ty id hid)⟩

theorem Extends.size_le {s s' : TyStore} (h : s.Extends s') : s.size ≤ s'.size := by
  rcases Nat.eq_zero_or_pos s.size with none_there | some_there
  · exact none_there ▸ Nat.zero_le _
  · have last : s.size - 1 < s.size := Nat.sub_one_lt_of_lt some_there
    obtain ⟨ty, hty⟩ := exists_get ⟨s.size - 1⟩ last
    exact Nat.le_of_pred_lt (lt_size_of_get (h _ ty hty))

theorem lookup_push (s : TyStore) (ty other : Ty) :
    lookup ⟨s.types.push ty⟩ other = if other = ty then some ⟨s.size⟩ else s.lookup other := by
  have last : (s.types.push ty)[s.types.size]? = some ty := by simp
  have before : ∀ id ∈ s.ids.reverse, (s.types.push ty)[id.index]? = s.types[id.index]? := by
    intro id hid
    simp only [ids, List.mem_reverse, List.mem_map, List.mem_range] at hid
    obtain ⟨i, hi, rfl⟩ := hid
    exact (Array.getElem?_push_lt hi).trans (Array.getElem?_eq_getElem hi).symm
  have ids_push : (TyStore.mk (s.types.push ty)).ids.reverse = ⟨s.size⟩ :: s.ids.reverse := by
    simp [ids, size, List.range_succ]
  simp only [lookup, ids_push, List.find?_cons, size, last]
  by_cases same : other = ty
  · simp [same]
  · have differ : (some ty == some other) = false := by simpa using Ne.symm same
    simp only [differ, if_neg same]
    rw [← List.head?_filter, ← List.head?_filter]
    exact congrArg _ (List.filter_congr fun id hid => by rw [before id hid])

theorem lookup_of_intern {s s' : TyStore} {ty : Ty} {id : TyId} (h : s.intern ty = (id, s')) :
    s'.lookup ty = some id := by
  unfold intern at h
  split at h
  · next found =>
    cases h
    exact found
  · cases h
    rw [lookup_push, if_pos rfl]

theorem grows_of_intern {s s' : TyStore} {ty : Ty} {id : TyId} (h : s.intern ty = (id, s')) :
    s.Grows s' := by
  refine ⟨extends_of_intern h, fun other found hfound => ?_⟩
  unfold intern at h
  split at h
  · cases h
    exact hfound
  · next absent =>
    cases h
    have differ : other ≠ ty := by
      rintro rfl
      rw [absent] at hfound
      cases hfound
    rw [lookup_push, if_neg differ, hfound]

end Linkage.TyStore
