import Linkage.Proofs.TySubstitution
import Mathlib.Data.List.Induction
/-!
A store with a table of the ids of its types. Only the list of the types is stored, and a table is
made again from it: it is the table that grew with the store, whatever was interned in between. Up
to the types that 32 bits can count, a table and the store that is searched instead answer alike.
-/
namespace Linkage

inductive TyRequest where
  | get (id : TyId)
  | size
  | lookup (ty : Ty)
  | intern (ty : Ty)
  | substitute (rename : Name → Option Name) (id : TyId)

inductive TyAnswer where
  | ty (ty : Ty)
  | count (n : Nat)
  | found (id : Option TyId)
  | id (id : TyId)

class TyKeeper (σ : Type) where
  get : σ → TyId → Checked Ty
  size : σ → Nat
  lookup : σ → Ty → Option TyId
  intern : σ → Ty → TyId × σ
  substitute : σ → (Name → Option Name) → TyId → Checked (TyId × σ)

namespace TyKeeper

variable {σ : Type} [TyKeeper σ]

def answer (s : σ) : TyRequest → Checked (TyAnswer × σ)
  | .get id => do return (.ty (← get s id), s)
  | .size => .ok (.count (size s), s)
  | .lookup ty => .ok (.found (lookup s ty), s)
  | .intern ty => .ok (.id (intern s ty).1, (intern s ty).2)
  | .substitute rename id => do
    let (new, s) ← substitute s rename id
    return (.id new, s)

def answers (s : σ) (requests : List TyRequest) : Checked (List TyAnswer × σ) :=
  mapAccumM answer s requests

end TyKeeper

instance : TyKeeper TyStore where
  get := TyStore.get
  size := TyStore.size
  lookup := TyStore.lookup
  intern := TyStore.intern
  substitute := TyStore.substitute

theorem TyStore.substituteWithin_parts {rename : Name → Option Name} {fuel : Nat} {s : TyStore}
    {id : TyId} {ty : Ty} (hty : s.get id = .ok ty) (no_class : ∀ name, ty ≠ .instanceOf name) :
    substituteWithin rename (fuel + 1) s id =
      mapAccumM (substituteWithin rename fuel) s ty.parts >>= fun made =>
        if made.1 = ty.parts then pure (id, made.2)
        else pure (made.2.intern (ty.withParts made.1)) := by
  rw [substituteWithin, hty, ok_bind]
  cases ty with
  | instanceOf name => exact (no_class name rfl).elim
  | _ => rfl

/-- A store that finds the id of a type in a table. -/
structure TyTable where
  types : Array Ty
  /-- The ids by type. Of several entries for a type the first one, made last, counts. -/
  entries : List (Ty × TyId)

namespace TyTable

/-- The id of a position, which is cut off to 32 bits. -/
def idAt (position : Nat) : TyId := ⟨position % wordBound 32⟩

def store (t : TyTable) : TyStore := ⟨t.types⟩

def get (t : TyTable) (id : TyId) : Checked Ty := t.store.get id

def lookup (t : TyTable) (ty : Ty) : Option TyId := t.entries.lookup ty

def ofList (types : List Ty) : TyTable :=
  ⟨types.toArray, types.zipIdx.foldl (fun entries (ty, i) => (ty, idAt i) :: entries) []⟩

def push (t : TyTable) (ty : Ty) : TyTable :=
  ⟨t.types.push ty, (ty, idAt t.types.size) :: t.entries⟩

def intern (t : TyTable) (ty : Ty) : TyId × TyTable :=
  match t.lookup ty with
  | some id => (id, t)
  | none => (idAt t.types.size, t.push ty)

def substituteWithin (rename : Name → Option Name) :
    Nat → TyTable → TyId → Checked (TyId × TyTable)
  | 0, _, _ => .error .endless
  | fuel + 1, t, id => do
    match ← t.get id with
    | .instanceOf name =>
      match rename name with
      | some new => if new = name then return (id, t) else return t.intern (.instanceOf new)
      | none => return (id, t)
    | ty =>
      let (parts, t) ← mapAccumM (substituteWithin rename fuel) t ty.parts
      if parts = ty.parts then return (id, t) else return t.intern (ty.withParts parts)

def substitute (t : TyTable) (rename : Name → Option Name) (id : TyId) :
    Checked (TyId × TyTable) :=
  substituteWithin rename t.store.depth t id

instance : TyKeeper TyTable where
  get := get
  size t := t.types.size
  lookup := lookup
  intern := intern
  substitute := substitute

/-- The tables there are: made from a list, then grown by interning. -/
inductive Built : TyTable → Prop
  | ofList (types : List Ty) : Built (ofList types)
  | intern {t : TyTable} (ty : Ty) : Built t → Built (t.intern ty).2

theorem ofList_concat (types : List Ty) (ty : Ty) :
    ofList (types ++ [ty]) = (ofList types).push ty := by
  simp [ofList, push, List.zipIdx_append]

/-- A table is the one made from the list of its types. A type that is interned gets an entry
exactly if it is appended, so that the entries come up in the order of the types. -/
theorem Built.ofList_eq {t : TyTable} (h : t.Built) : TyTable.ofList t.types.toList = t := by
  induction h with
  | ofList types => rfl
  | @intern t ty _ ih =>
    unfold TyTable.intern
    split
    · exact ih
    · calc TyTable.ofList (t.push ty).types.toList
          = TyTable.ofList (t.types.toList ++ [ty]) := by rw [push, Array.toList_push]
        _ = t.push ty := by rw [ofList_concat, ih]

theorem lookup_push (t : TyTable) (ty other : Ty) :
    (t.push ty).lookup other =
      if other = ty then some (idAt t.types.size) else t.lookup other := by
  by_cases same : other = ty
  · simp [lookup, push, same]
  · simp [lookup, push, List.lookup_cons, same, beq_eq_false_iff_ne.mpr same]

theorem lookup_ofList (types : List Ty) (ty : Ty) :
    (ofList types).lookup ty =
      ((TyStore.ofList types).lookup ty).map fun id => idAt id.index := by
  induction types using List.reverseRecOn with
  | nil => rfl
  | append_singleton types last ih =>
    have pushed : TyStore.ofList (types ++ [last]) = ⟨(TyStore.ofList types).types.push last⟩ := by
      simp [TyStore.ofList]
    rw [ofList_concat, lookup_push, pushed, TyStore.lookup_push, ih]
    split
    · rfl
    · rfl

theorem Built.lookup_eq {t : TyTable} (h : t.Built) (countable : t.store.size ≤ wordBound 32)
    (ty : Ty) : t.lookup ty = t.store.lookup ty := by
  have searched : t.lookup ty = (t.store.lookup ty).map fun id => idAt id.index := by
    have made := lookup_ofList t.types.toList ty
    rwa [h.ofList_eq] at made
  rw [searched]
  cases found : t.store.lookup ty with
  | none => rfl
  | some id =>
    have stored := TyStore.lt_size_of_get (TyStore.get_of_lookup found)
    have below := Nat.lt_of_lt_of_le stored countable
    rw [Option.map_some, idAt, Nat.mod_eq_of_lt below]

theorem Built.intern_store {t : TyTable} (h : t.Built) {ty : Ty} {id : TyId} {s : TyStore}
    (interned : t.store.intern ty = (id, s)) (countable : s.size ≤ wordBound 32) :
    ∃ u, t.intern ty = (id, u) ∧ u.Built ∧ u.store = s := by
  have before := (TyStore.grows_of_intern interned).types.size_le
  have same := h.lookup_eq (Nat.le_trans before countable) ty
  have built := h.intern ty
  rw [TyStore.intern, ← same] at interned
  rw [TyTable.intern] at built ⊢
  cases found : t.lookup ty with
  | some known =>
    rw [found] at interned
    cases interned
    exact ⟨t, rfl, h, rfl⟩
  | none =>
    rw [found] at interned built
    cases interned
    have below : t.types.size + 1 ≤ wordBound 32 := by
      simpa only [TyStore.size, store, Array.size_push] using countable
    exact ⟨t.push ty, by rw [idAt, Nat.mod_eq_of_lt below]; rfl, built, rfl⟩

theorem Built.keep_or_intern_store {t : TyTable} (h : t.Built) {unchanged : Prop}
    [Decidable unchanged] {ty : Ty} {id new : TyId} {s : TyStore}
    (went : (if unchanged then pure (id, t.store) else pure (t.store.intern ty) :
      Checked (TyId × TyStore)) = .ok (new, s)) (countable : s.size ≤ wordBound 32) :
    ∃ u, (if unchanged then pure (id, t) else pure (t.intern ty) : Checked (TyId × TyTable)) =
      .ok (new, u) ∧ u.Built ∧ u.store = s := by
  by_cases same : unchanged
  · rw [if_pos same] at went ⊢
    cases went
    exact ⟨t, rfl, h, rfl⟩
  · rw [if_neg same] at went ⊢
    obtain ⟨u, hu, built, stored⟩ := h.intern_store (Except.ok.inj went) countable
    exact ⟨u, congrArg Except.ok hu, built, stored⟩

theorem Built.mapAccumM_store {α β : Type} {f : TyTable → α → Checked (β × TyTable)}
    {g : TyStore → α → Checked (β × TyStore)}
    (grows : ∀ {s a b s'}, g s a = .ok (b, s') → s.Grows s')
    (step : ∀ {t a b s}, t.Built → g t.store a = .ok (b, s) → s.size ≤ wordBound 32 →
      ∃ u, f t a = .ok (b, u) ∧ u.Built ∧ u.store = s)
    {t : TyTable} (h : t.Built) {as : List α} {bs : List β} {s : TyStore}
    (went : mapAccumM g t.store as = .ok (bs, s)) (countable : s.size ≤ wordBound 32) :
    ∃ u, mapAccumM f t as = .ok (bs, u) ∧ u.Built ∧ u.store = s := by
  induction as generalizing t bs with
  | nil => cases went; exact ⟨t, rfl, h, rfl⟩
  | cons a rest ih =>
    obtain ⟨b, s₁, others, hb, hothers, rfl⟩ := mapAccumM_cons_eq_ok.mp went
    have later : s₁.Grows s :=
      (mapAccumM_grows (R := fun _ _ _ => True) TyStore.Grows.refl TyStore.Grows.trans
        (fun _ _ => trivial) (fun _ _ hstep => ⟨grows hstep, trivial⟩) hothers).1
    obtain ⟨u₁, hu₁, built, rfl⟩ :=
      step h hb (Nat.le_trans later.types.size_le countable)
    obtain ⟨u, hu, built, stored⟩ := ih built hothers
    exact ⟨u, mapAccumM_cons_eq_ok.mpr ⟨b, u₁, others, hu₁, hu, rfl⟩, built, stored⟩

theorem substituteWithin_parts {rename : Name → Option Name} {fuel : Nat} {t : TyTable}
    {id : TyId} {ty : Ty} (hty : t.get id = .ok ty) (no_class : ∀ name, ty ≠ .instanceOf name) :
    substituteWithin rename (fuel + 1) t id =
      mapAccumM (substituteWithin rename fuel) t ty.parts >>= fun made =>
        if made.1 = ty.parts then pure (id, made.2)
        else pure (made.2.intern (ty.withParts made.1)) := by
  rw [substituteWithin, hty, ok_bind]
  cases ty with
  | instanceOf name => exact (no_class name rfl).elim
  | _ => rfl

theorem Built.substituteWithin_store {rename : Name → Option Name} {fuel : Nat} {t : TyTable}
    (h : t.Built) {id new : TyId} {s : TyStore}
    (went : TyStore.substituteWithin rename fuel t.store id = .ok (new, s))
    (countable : s.size ≤ wordBound 32) :
    ∃ u, substituteWithin rename fuel t id = .ok (new, u) ∧ u.Built ∧ u.store = s := by
  induction fuel generalizing t id new s with
  | zero => cases went
  | succ fuel ih =>
    obtain ⟨ty, hty, -⟩ := bind_eq_ok.mp went
    by_cases hclass : ∃ name, ty = .instanceOf name
    · obtain ⟨name, rfl⟩ := hclass
      have got : t.get id = .ok (.instanceOf name) := hty
      simp only [TyStore.substituteWithin, hty, ok_bind] at went
      simp only [substituteWithin, got, ok_bind]
      cases renamed : rename name with
      | none =>
        simp only [renamed] at went
        cases went
        exact ⟨t, rfl, h, rfl⟩
      | some other =>
        simp only [renamed] at went
        exact h.keep_or_intern_store went countable
    · have no_class : ∀ name, ty ≠ .instanceOf name := fun name same => hclass ⟨name, same⟩
      rw [TyStore.substituteWithin_parts hty no_class] at went
      rw [substituteWithin_parts hty no_class]
      obtain ⟨⟨ids, s₁⟩, hids, went⟩ := bind_eq_ok.mp went
      have before : s₁.Grows s := by
        split at went
        · cases went; exact .refl _
        · exact TyStore.grows_of_intern (Except.ok.inj went)
      obtain ⟨u₁, hu₁, built, rfl⟩ := h.mapAccumM_store
        (f := substituteWithin rename fuel) TyStore.substituteWithin_grows (fun built => ih built)
        hids (Nat.le_trans before.types.size_le countable)
      rw [hu₁, ok_bind]
      exact built.keep_or_intern_store went countable

theorem Built.answer_store {t : TyTable} (h : t.Built) {request : TyRequest} {reply : TyAnswer}
    {s : TyStore} (went : TyKeeper.answer t.store request = .ok (reply, s))
    (countable : s.size ≤ wordBound 32) :
    ∃ u, TyKeeper.answer t request = .ok (reply, u) ∧ u.Built ∧ u.store = s := by
  cases request with
  | get id =>
    obtain ⟨ty, hty, went⟩ := bind_eq_ok.mp went
    cases went
    exact ⟨t, bind_eq_ok.mpr ⟨ty, hty, rfl⟩, h, rfl⟩
  | size =>
    cases went
    exact ⟨t, rfl, h, rfl⟩
  | lookup ty =>
    cases went
    refine ⟨t, ?_, h, rfl⟩
    exact congrArg (fun id => Except.ok (TyAnswer.found id, t)) (h.lookup_eq countable ty)
  | intern ty =>
    cases went
    have interned : t.store.intern ty = ((t.store.intern ty).1, (t.store.intern ty).2) := rfl
    obtain ⟨u, hu, built, stored⟩ := h.intern_store interned countable
    refine ⟨u, ?_, built, stored⟩
    exact congrArg (fun made => Except.ok (TyAnswer.id made.1, made.2)) hu
  | substitute rename id =>
    obtain ⟨⟨new, s₁⟩, hnew, went⟩ := bind_eq_ok.mp went
    cases went
    obtain ⟨u, hu, built, stored⟩ := h.substituteWithin_store hnew countable
    exact ⟨u, bind_eq_ok.mpr ⟨(new, u), hu, rfl⟩, built, stored⟩

theorem grows_of_answer {s s' : TyStore} {request : TyRequest} {reply : TyAnswer}
    (h : TyKeeper.answer s request = .ok (reply, s')) : s.Grows s' := by
  cases request with
  | get id =>
    obtain ⟨ty, -, h⟩ := bind_eq_ok.mp h
    cases h
    exact .refl s
  | size =>
    cases h
    exact .refl s
  | lookup ty =>
    cases h
    exact .refl s
  | intern ty =>
    cases h
    exact TyStore.grows_of_intern rfl
  | substitute rename id =>
    obtain ⟨⟨new, s₁⟩, hnew, h⟩ := bind_eq_ok.mp h
    cases h
    exact TyStore.substituteWithin_grows hnew

/-- Whatever is asked of a store that never outgrows 32 bits, its table answers the same. -/
theorem Built.answers_store {t : TyTable} (h : t.Built) {requests : List TyRequest}
    {replies : List TyAnswer} {s : TyStore}
    (went : TyKeeper.answers t.store requests = .ok (replies, s))
    (countable : s.size ≤ wordBound 32) :
    ∃ u, TyKeeper.answers t requests = .ok (replies, u) ∧ u.Built ∧ u.store = s :=
  h.mapAccumM_store grows_of_answer (fun built => built.answer_store) went countable

theorem Built.answers_substitute {t : TyTable} (h : t.Built) {rename : Name → Option Name}
    {id new : TyId} {s : TyStore} (went : t.store.substitute rename id = .ok (new, s))
    (countable : s.size ≤ wordBound 32) :
    ∃ u, TyKeeper.answers t [.substitute rename id] = .ok ([.id new], u) ∧ u.Built ∧
      u.store = s := by
  have asked : TyKeeper.answer t.store (.substitute rename id) = .ok (.id new, s) :=
    bind_eq_ok.mpr ⟨(new, s), went, rfl⟩
  exact h.answers_store (mapAccumM_cons_eq_ok.mpr ⟨_, _, [], asked, rfl, rfl⟩) countable

section

variable {t u : TyTable} {ty : Ty} {id new : TyId} {rename : Name → Option Name}

theorem size_le_of_intern (h : t.intern ty = (id, u)) : t.store.size ≤ u.store.size := by
  unfold intern at h
  split at h
  · cases h
    exact Nat.le_refl _
  · cases h
    simp [store, push, TyStore.size]

theorem size_le_of_mapAccumM {α β : Type} {f : TyTable → α → Checked (β × TyTable)}
    (grows : ∀ {t a b u}, f t a = .ok (b, u) → t.store.size ≤ u.store.size) {as : List α}
    {bs : List β} (h : mapAccumM f t as = .ok (bs, u)) : t.store.size ≤ u.store.size :=
  (mapAccumM_grows (L := fun t u : TyTable => t.store.size ≤ u.store.size)
    (R := fun _ _ _ => True) (fun _ => Nat.le_refl _) Nat.le_trans (fun _ _ => trivial)
    (fun _ _ made => ⟨grows made, trivial⟩) h).1

theorem size_le_of_substituteWithin {fuel : Nat}
    (h : substituteWithin rename fuel t id = .ok (new, u)) : t.store.size ≤ u.store.size := by
  induction fuel generalizing t u id new with
  | zero => cases h
  | succ fuel ih =>
    simp only [substituteWithin, bind_eq_ok] at h
    obtain ⟨ty, -, h⟩ := h
    split at h
    · split at h
      · split at h
        · cases h
          exact Nat.le_refl _
        · exact size_le_of_intern (Except.ok.inj h)
      · cases h
        exact Nat.le_refl _
    · obtain ⟨⟨ids, v⟩, hids, h⟩ := bind_eq_ok.mp h
      have parts : t.store.size ≤ v.store.size := size_le_of_mapAccumM ih hids
      split at h
      · cases h
        exact parts
      · exact parts.trans (size_le_of_intern (Except.ok.inj h))

theorem Built.store_of_intern (h : t.Built) (interned : t.intern ty = (id, u))
    (countable : u.store.size ≤ wordBound 32) : t.store.intern ty = (id, u.store) ∧ u.Built := by
  have built : u.Built := by
    have made := h.intern ty
    rwa [interned] at made
  refine ⟨?_, built⟩
  rw [TyStore.intern, ← h.lookup_eq ((size_le_of_intern interned).trans countable)]
  rw [TyTable.intern] at interned
  cases found : t.lookup ty with
  | some known =>
    rw [found] at interned
    cases interned
    rfl
  | none =>
    rw [found] at interned
    cases interned
    have below : t.types.size + 1 ≤ wordBound 32 := by
      simpa only [TyStore.size, store, push, Array.size_push] using countable
    rw [idAt, Nat.mod_eq_of_lt below]
    rfl

theorem Built.store_of_keep_or_intern (h : t.Built) {unchanged : Prop} [Decidable unchanged]
    (went : (if unchanged then pure (id, t) else pure (t.intern ty) :
      Checked (TyId × TyTable)) = .ok (new, u)) (countable : u.store.size ≤ wordBound 32) :
    (if unchanged then pure (id, t.store) else pure (t.store.intern ty) :
      Checked (TyId × TyStore)) = .ok (new, u.store) ∧ u.Built := by
  by_cases same : unchanged
  · rw [if_pos same] at went ⊢
    cases went
    exact ⟨rfl, h⟩
  · rw [if_neg same] at went ⊢
    obtain ⟨interned, built⟩ := h.store_of_intern (Except.ok.inj went) countable
    exact ⟨congrArg Except.ok interned, built⟩

theorem Built.store_of_mapAccumM {α β : Type} {f : TyTable → α → Checked (β × TyTable)}
    {g : TyStore → α → Checked (β × TyStore)}
    (grows : ∀ {t a b u}, f t a = .ok (b, u) → t.store.size ≤ u.store.size)
    (step : ∀ {t a b u}, t.Built → f t a = .ok (b, u) → u.store.size ≤ wordBound 32 →
      g t.store a = .ok (b, u.store) ∧ u.Built)
    (h : t.Built) {as : List α} {bs : List β} (went : mapAccumM f t as = .ok (bs, u))
    (countable : u.store.size ≤ wordBound 32) :
    mapAccumM g t.store as = .ok (bs, u.store) ∧ u.Built := by
  induction as generalizing t bs with
  | nil => cases went; exact ⟨rfl, h⟩
  | cons a rest ih =>
    obtain ⟨b, v, others, hb, hothers, rfl⟩ := mapAccumM_cons_eq_ok.mp went
    have later : v.store.size ≤ u.store.size := size_le_of_mapAccumM grows hothers
    obtain ⟨hb', built⟩ := step h hb (later.trans countable)
    obtain ⟨hothers', built'⟩ := ih built hothers
    exact ⟨mapAccumM_cons_eq_ok.mpr ⟨b, v.store, others, hb', hothers', rfl⟩, built'⟩

theorem Built.store_of_substituteWithin {fuel : Nat} (h : t.Built)
    (went : substituteWithin rename fuel t id = .ok (new, u))
    (countable : u.store.size ≤ wordBound 32) :
    TyStore.substituteWithin rename fuel t.store id = .ok (new, u.store) ∧ u.Built := by
  induction fuel generalizing t u id new with
  | zero => cases went
  | succ fuel ih =>
    obtain ⟨ty, hty, -⟩ := bind_eq_ok.mp went
    have got : t.store.get id = .ok ty := hty
    by_cases hclass : ∃ name, ty = .instanceOf name
    · obtain ⟨name, rfl⟩ := hclass
      simp only [substituteWithin, hty, ok_bind] at went
      simp only [TyStore.substituteWithin, got, ok_bind]
      cases renamed : rename name with
      | none =>
        simp only [renamed] at went
        cases went
        exact ⟨rfl, h⟩
      | some other =>
        simp only [renamed] at went
        exact h.store_of_keep_or_intern went countable
    · have no_class : ∀ name, ty ≠ .instanceOf name := fun name same => hclass ⟨name, same⟩
      rw [substituteWithin_parts hty no_class] at went
      rw [TyStore.substituteWithin_parts got no_class]
      obtain ⟨⟨ids, v⟩, hids, went⟩ := bind_eq_ok.mp went
      have before : v.store.size ≤ u.store.size := by
        split at went
        · cases went
          exact Nat.le_refl _
        · exact size_le_of_intern (Except.ok.inj went)
      obtain ⟨hids', built⟩ := h.store_of_mapAccumM size_le_of_substituteWithin
        (fun built made => ih built made) hids (before.trans countable)
      rw [hids', ok_bind]
      exact built.store_of_keep_or_intern went countable

end

end TyTable

end Linkage
