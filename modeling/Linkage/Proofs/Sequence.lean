import Linkage.Checked
import Mathlib.Data.List.Forall2
/-!
Passes over lists that went through to the end. What they answered is related to what they were
given element by element, and each element was met in the state that the ones before it left.
-/
namespace Linkage

variable {α β γ ε σ : Type}

theorem ok_bind (a : α) (f : α → Except ε β) : (.ok a >>= f) = f a := rfl

theorem bind_eq_ok {x : Except ε α} {f : α → Except ε β} {b : β} :
    (x >>= f) = .ok b ↔ ∃ a, x = .ok a ∧ f a = .ok b := by
  cases x with
  | error e =>
    constructor
    · intro h; cases h
    · rintro ⟨a, h, _⟩; cases h
  | ok a =>
    constructor
    · intro h; exact ⟨a, rfl, h⟩
    · rintro ⟨a', h, hf⟩; cases h; exact hf

theorem toOption_eq_some {x : Except ε α} {a : α} : x.toOption = some a ↔ x = .ok a := by
  cases x <;> simp [Except.toOption]

theorem mapM_eq_ok {f : α → Except ε β} {xs : List α} {ys : List β} :
    xs.mapM f = .ok ys ↔ List.Forall₂ (fun x y => f x = .ok y) xs ys := by
  induction xs generalizing ys with
  | nil =>
    constructor
    · intro h; cases h; exact .nil
    · intro h; cases h; rfl
  | cons x xs ih =>
    simp only [List.mapM_cons, bind_eq_ok, ih]
    constructor
    · rintro ⟨y, hy, rest, hrest, h⟩
      cases h
      exact .cons hy hrest
    · intro h
      cases h with
      | cons hy hrest => exact ⟨_, hy, _, hrest, rfl⟩

theorem mapM_congr {γ : Type} {f : α → Except ε γ} {g : β → Except ε γ} {xs : List α} {ys : List β}
    (same : List.Forall₂ (fun x y => f x = g y) xs ys) : xs.mapM f = ys.mapM g := by
  induction same with
  | nil => rfl
  | cons head _ ih => rw [List.mapM_cons, List.mapM_cons, head, ih]

theorem forall₂_exists_right {R : α → β → Prop} {xs : List α} {ys : List β}
    (h : List.Forall₂ R xs ys) {x : α} (hx : x ∈ xs) : ∃ y ∈ ys, R x y := by
  induction h with
  | nil => cases hx
  | cons hy _ ih =>
    rcases List.mem_cons.mp hx with rfl | hx
    · exact ⟨_, List.mem_cons_self, hy⟩
    · obtain ⟨y, hmem, hxy⟩ := ih hx
      exact ⟨y, List.mem_cons_of_mem _ hmem, hxy⟩

theorem forall₂_exists_left {R : α → β → Prop} {xs : List α} {ys : List β}
    (h : List.Forall₂ R xs ys) {y : β} (hy : y ∈ ys) : ∃ x ∈ xs, R x y :=
  forall₂_exists_right h.flip hy

theorem forall₂_imp_mem {R S : α → β → Prop} {xs : List α} {ys : List β}
    (h : List.Forall₂ R xs ys) (imp : ∀ x y, y ∈ ys → R x y → S x y) : List.Forall₂ S xs ys := by
  induction h with
  | nil => exact .nil
  | cons head _ ih =>
    exact .cons (imp _ _ List.mem_cons_self head)
      (ih fun x y hy hxy => imp x y (List.mem_cons_of_mem _ hy) hxy)

theorem forall₂_comp_mem {R : α → β → Prop} {S : β → γ → Prop} {T : α → γ → Prop} {xs : List α}
    {ys : List β} {zs : List γ} (h : List.Forall₂ R xs ys) (h' : List.Forall₂ S ys zs)
    (comp : ∀ x ∈ xs, ∀ y z, R x y → S y z → T x z) : List.Forall₂ T xs zs := by
  induction h generalizing zs with
  | nil => cases h'; exact .nil
  | cons head _ ih =>
    cases h' with
    | cons head' rest' =>
      exact .cons (comp _ List.mem_cons_self _ _ head head')
        (ih rest' fun x hx => comp x (List.mem_cons_of_mem _ hx))

theorem map_eq_map_of_forall₂ {δ : Type} {R : α → β → Prop} {S : α → γ → Prop} {f : β → δ}
    {g : γ → δ} {xs : List α} {ys : List β} {zs : List γ} (h : List.Forall₂ R xs ys)
    (h' : List.Forall₂ S xs zs) (same : ∀ x y z, R x y → S x z → f y = g z) :
    ys.map f = zs.map g := by
  induction h generalizing zs with
  | nil => cases h'; rfl
  | cons head _ ih =>
    cases h' with
    | cons head' rest' => rw [List.map_cons, List.map_cons, same _ _ _ head head', ih rest']

theorem exists_forall₂ {R : α → β → Prop} {xs : List α} (h : ∀ x ∈ xs, ∃ y, R x y) :
    ∃ ys, List.Forall₂ R xs ys := by
  induction xs with
  | nil => exact ⟨[], .nil⟩
  | cons x rest ih =>
    obtain ⟨y, hy⟩ := h x List.mem_cons_self
    obtain ⟨ys, hys⟩ := ih fun x hx => h x (List.mem_cons_of_mem _ hx)
    exact ⟨y :: ys, .cons hy hys⟩

theorem forall₂_getElem? {R : α → β → Prop} {xs : List α} {ys : List β}
    (h : List.Forall₂ R xs ys) {i : Nat} {x : α} (hx : xs[i]? = some x) :
    ∃ y, ys[i]? = some y ∧ R x y := by
  induction h generalizing i with
  | nil => cases hx
  | cons head _ ih =>
    cases i with
    | zero => cases hx; exact ⟨_, rfl, head⟩
    | succ i => exact ih hx

theorem forall₂_flatMap_of_getElem? {δ : Type} {R : γ → δ → Prop} {f : α → List γ} {g : β → List δ}
    {xs : List α} {ys : List β} (same : xs.length = ys.length)
    (each : ∀ (i : Nat) (x : α) (y : β), xs[i]? = some x → ys[i]? = some y →
      List.Forall₂ R (f x) (g y)) : List.Forall₂ R (xs.flatMap f) (ys.flatMap g) := by
  induction xs generalizing ys with
  | nil =>
    cases ys with
    | nil => exact .nil
    | cons y ys => cases same
  | cons x xs ih =>
    cases ys with
    | nil => cases same
    | cons y ys =>
      rw [List.flatMap_cons, List.flatMap_cons]
      exact List.rel_append (each 0 x y rfl rfl) (ih (Nat.succ.inj same) fun i => each (i + 1))

theorem flatMap_eq_of_getElem? {f : α → List γ} {g : β → List γ} {xs : List α}
    {ys : List β} (same : xs.length = ys.length)
    (each : ∀ (i : Nat) (x : α) (y : β), xs[i]? = some x → ys[i]? = some y → f x = g y) :
    xs.flatMap f = ys.flatMap g := by
  rw [← List.forall₂_eq_eq_eq]
  exact forall₂_flatMap_of_getElem? same fun i x y hx hy =>
    each i x y hx hy ▸ List.forall₂_refl (f x)

theorem flatMap_zipIdx_congr {R : α → β → Prop} {f : α × Nat → List γ} {g : β × Nat → List γ}
    {xs : List α} {ys : List β} (h : List.Forall₂ R xs ys)
    (same : ∀ x y i, R x y → f (x, i) = g (y, i)) (start : Nat) :
    (xs.zipIdx start).flatMap f = (ys.zipIdx start).flatMap g := by
  induction h generalizing start with
  | nil => rfl
  | cons head _ ih =>
    simp only [List.zipIdx_cons, List.flatMap_cons, same _ _ start head, ih (start + 1)]

theorem lookup_eq_some_iff_mem [DecidableEq α] {entries : List (α × β)} {key : α} {value : β}
    (nodup : (entries.map (·.1)).Nodup) :
    entries.lookup key = some value ↔ (key, value) ∈ entries := by
  induction entries with
  | nil => simp
  | cons head rest ih =>
    obtain ⟨found, other⟩ := head
    rw [List.map_cons, List.nodup_cons] at nodup
    by_cases same : key = found
    · subst same
      have absent : (key, value) ∉ rest := fun hmem =>
        nodup.1 (List.mem_map.mpr ⟨_, hmem, rfl⟩)
      simp [absent, eq_comm]
    · simp [List.lookup_cons, beq_eq_false_iff_ne.mpr same, same, ih nodup.2]

theorem foldlM_append_eq_ok {f : α → Except ε (List β)} {xs : List α} {start out : List β} :
    xs.foldlM (fun found x => do return found ++ (← f x)) start = .ok out ↔
      ∃ each, List.Forall₂ (fun x found => f x = .ok found) xs each ∧
        out = start ++ each.flatten := by
  induction xs generalizing start with
  | nil =>
    constructor
    · intro h; cases h; exact ⟨[], .nil, by simp⟩
    · rintro ⟨each, h, rfl⟩; cases h; simp; rfl
  | cons x rest ih =>
    simp only [List.foldlM_cons, bind_eq_ok, ih]
    constructor
    · rintro ⟨next, ⟨found, hfound, hnext⟩, each, heach, rfl⟩
      cases hnext
      exact ⟨found :: each, .cons hfound heach, by simp⟩
    · rintro ⟨each, h, rfl⟩
      cases h with
      | @cons _ found _ others hfound hothers =>
        exact ⟨start ++ found, ⟨found, hfound, rfl⟩, others, hothers, by simp⟩

theorem exists_foldlM_keeping {f : β → α → Except ε β} {I : β → Prop} (xs : List α)
    (step : ∀ b, I b → ∀ a ∈ xs, ∃ b', f b a = .ok b' ∧ I b') {b : β} (start : I b) :
    ∃ b', xs.foldlM f b = .ok b' ∧ I b' := by
  induction xs generalizing b with
  | nil => exact ⟨b, rfl, start⟩
  | cons a rest ih =>
    obtain ⟨next, hnext, kept⟩ := step b start a List.mem_cons_self
    obtain ⟨b', hrest, holds⟩ :=
      ih (fun b hb a ha => step b hb a (List.mem_cons_of_mem _ ha)) kept
    exact ⟨b', by rw [List.foldlM_cons, hnext, ok_bind, hrest], holds⟩

theorem exists_foldlM {f : β → α → Except ε β} (xs : List α)
    (step : ∀ b, ∀ a ∈ xs, ∃ b', f b a = .ok b') (b : β) : ∃ b', xs.foldlM f b = .ok b' := by
  obtain ⟨b', hrun, -⟩ := exists_foldlM_keeping (I := fun _ => True) (b := b) xs
    (fun b _ a ha => (step b a ha).imp fun _ hstep => ⟨hstep, trivial⟩) trivial
  exact ⟨b', hrun⟩

theorem exists_first {P : α → Prop} {xs : List α} (h : ∃ x ∈ xs, ¬ P x) :
    ∃ before x after, xs = before ++ x :: after ∧ (∀ y ∈ before, P y) ∧ ¬ P x := by
  induction xs with
  | nil =>
    obtain ⟨x, hx, -⟩ := h
    cases hx
  | cons x rest ih =>
    by_cases holds : P x
    · obtain ⟨y, hy, lacks⟩ := h
      have later : y ∈ rest :=
        (List.mem_cons.mp hy).resolve_left fun same => lacks (same ▸ holds)
      obtain ⟨before, z, after, rfl, passed, first⟩ := ih ⟨y, later, lacks⟩
      exact ⟨x :: before, z, after, rfl, List.forall_mem_cons.mpr ⟨holds, passed⟩, first⟩
    · exact ⟨[], x, rest, rfl, fun _ h => absurd h List.not_mem_nil, holds⟩

theorem foldlM_eq_error {f : β → α → Except ε β} {I : β → Prop} {before after : List α} {a : α}
    {e : ε} (passes : ∀ b, I b → ∀ x ∈ before, ∃ b', f b x = .ok b' ∧ I b')
    (stops : ∀ b, I b → f b a = .error e) {b : β} (start : I b) :
    (before ++ a :: after).foldlM f b = .error e := by
  obtain ⟨b', hbefore, holds⟩ := exists_foldlM_keeping before passes start
  rw [List.foldlM_append, hbefore, ok_bind, List.foldlM_cons, stops b' holds]
  rfl

theorem mapAccum_grows {f : σ → α → β × σ} {L : σ → σ → Prop} (refl : ∀ s, L s s)
    (trans : ∀ {s t u}, L s t → L t u → L s u) {R : α → β → Prop} (xs : List α) {s : σ}
    (step : ∀ u a, L s u → a ∈ xs → L u (f u a).2 ∧ R a (f u a).1) :
    L s (mapAccum f s xs).2 ∧ List.Forall₂ R xs (mapAccum f s xs).1 := by
  induction xs generalizing s with
  | nil => exact ⟨refl s, .nil⟩
  | cons a rest ih =>
    have first := step s a (refl s) List.mem_cons_self
    have others := ih fun u b hu hb => step u b (trans first.1 hu) (List.mem_cons_of_mem a hb)
    exact ⟨trans first.1 others.1, .cons first.2 others.2⟩

theorem mapAccumM_cons_eq_ok {f : σ → α → Checked (β × σ)} {a : α} {rest : List α} {s t : σ}
    {ys : List β} :
    mapAccumM f s (a :: rest) = .ok (ys, t) ↔
      ∃ b u bs, f s a = .ok (b, u) ∧ mapAccumM f u rest = .ok (bs, t) ∧ ys = b :: bs := by
  simp only [mapAccumM, bind_eq_ok, Prod.exists]
  constructor
  · rintro ⟨b, u, hb, bs, v, hbs, h⟩
    cases h
    exact ⟨b, u, bs, hb, hbs, rfl⟩
  · rintro ⟨b, u, bs, hb, hbs, rfl⟩
    exact ⟨b, u, hb, bs, t, hbs, rfl⟩

/-- The state of such a pass only grows, and what a step achieves is kept as it grows: then in the
end every answer fits its element. -/
theorem mapAccumM_grows {f : σ → α → Checked (β × σ)} {L : σ → σ → Prop}
    (refl : ∀ s, L s s) (trans : ∀ {s t u}, L s t → L t u → L s u)
    {R : σ → α → β → Prop} (mono : ∀ {s t a b}, L s t → R s a b → R t a b)
    {xs : List α} {s t : σ} {ys : List β}
    (step : ∀ {u v a b}, L s u → a ∈ xs → f u a = .ok (b, v) → L u v ∧ R v a b)
    (h : mapAccumM f s xs = .ok (ys, t)) : L s t ∧ List.Forall₂ (R t) xs ys := by
  induction xs generalizing s ys with
  | nil => cases h; exact ⟨refl _, .nil⟩
  | cons a rest ih =>
    obtain ⟨b, u, bs, hb, hbs, rfl⟩ := mapAccumM_cons_eq_ok.mp h
    have first := step (refl s) List.mem_cons_self hb
    have others := ih (fun hle ha => step (trans first.1 hle) (List.mem_cons_of_mem a ha)) hbs
    exact ⟨trans first.1 others.1, .cons (mono others.1 first.2) others.2⟩

theorem exists_mapAccumM {f : σ → α → Checked (β × σ)} {P : σ → α → Prop} (xs : List α) {s : σ}
    (step : ∀ u, ∀ a ∈ xs, P u a → ∃ b v, f u a = .ok (b, v) ∧ ∀ a', P u a' → P v a')
    (start : ∀ a ∈ xs, P s a) : ∃ ys t, mapAccumM f s xs = .ok (ys, t) := by
  induction xs generalizing s with
  | nil => exact ⟨[], s, rfl⟩
  | cons a rest ih =>
    obtain ⟨b, u, hb, keeps⟩ := step s a List.mem_cons_self (start a List.mem_cons_self)
    obtain ⟨bs, t, hbs⟩ := ih (fun u a ha => step u a (List.mem_cons_of_mem _ ha))
      fun a' ha' => keeps a' (start a' (List.mem_cons_of_mem a ha'))
    exact ⟨b :: bs, t, mapAccumM_cons_eq_ok.mpr ⟨b, u, bs, hb, hbs, rfl⟩⟩

end Linkage
