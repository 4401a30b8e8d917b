import Linkage.Proofs.Sequence
/-!
How a computation may end. Each step of a pass ends with something good or on an error that is
excused, and so does the whole pass: the good of one step is what the next one starts from.
-/
namespace Linkage

variable {ε α β σ : Type}

/-- A computation ends with something good, or on an error that is excused. -/
def Ends (good : α → Prop) (excused : ε → Prop) : Except ε α → Prop
  | .ok a => good a
  | .error e => excused e

variable {excused excused' : ε → Prop} {good good' : α → Prop}

theorem Ends.imp {x : Except ε α} (h : Ends good excused x) (better : ∀ a, good a → good' a)
    (worse : ∀ e, excused e → excused' e) : Ends good' excused' x := by
  cases x with
  | ok a => exact better a h
  | error e => exact worse e h

theorem Ends.exists_ok {x : Except ε α} (h : Ends good (fun _ => False) x) :
    ∃ a, x = .ok a ∧ good a := by
  cases x with
  | ok a => exact ⟨a, rfl, h⟩
  | error e => exact h.elim

theorem Ends.of_ok {x : Except ε α} (h : Ends good excused x) {a : α} (hx : x = .ok a) :
    good a := by
  subst hx
  exact h

theorem ends_of_ok {x : Except ε α} {a : α} (h : x = .ok a) (holds : good a) :
    Ends good excused x := h ▸ holds

theorem Ends.self {x : Except ε α} (h : Ends good excused x) : Ends (x = .ok ·) excused x := by
  cases x with
  | ok a => exact rfl
  | error e => exact h

theorem ends_trivial (x : Except ε α) : Ends (fun _ => True) (fun _ => True) x := by
  cases x <;> trivial

theorem eq_error_of_map {x : Except ε α} {f : α → β} {e : ε}
    (h : x.map f = .error e) : x = .error e := by
  cases x with
  | ok a => cases h
  | error e => exact congrArg _ (Except.error.inj h)

theorem Ends.bind {x : Except ε α} {f : α → Except ε β} {after : β → Prop}
    (h : Ends good excused x) (next : ∀ a, good a → Ends after excused (f a)) :
    Ends after excused (x >>= f) := by
  cases x with
  | ok a => exact next a h
  | error e => exact h

theorem Ends.mapM {f : α → Except ε β} {R : α → β → Prop} {xs : List α}
    (each : ∀ a ∈ xs, Ends (R a) excused (f a)) :
    Ends (fun ys => List.Forall₂ R xs ys) excused (xs.mapM f) := by
  induction xs with
  | nil => exact .nil
  | cons a rest ih =>
    obtain ⟨first, others⟩ := List.forall_mem_cons.mp each
    rw [List.mapM_cons]
    refine first.bind fun b hb => (ih others).bind fun bs hbs => ?_
    exact .cons hb hbs

theorem Ends.foldlM {f : β → α → Except ε β} {I : β → Prop} {xs : List α}
    (step : ∀ b, I b → ∀ a ∈ xs, Ends I excused (f b a)) {b : β} (start : I b) :
    Ends I excused (xs.foldlM f b) := by
  induction xs generalizing b with
  | nil => exact start
  | cons a rest ih =>
    rw [List.foldlM_cons]
    refine (step b start a List.mem_cons_self).bind fun next hnext => ?_
    exact ih (fun b hb a ha => step b hb a (List.mem_cons_of_mem _ ha)) hnext

/-- The state of such a pass keeps an invariant and only grows, and what a step achieves is kept as
it grows. -/
theorem Ends.mapAccumM {excused : Fault → Prop} {f : σ → α → Checked (β × σ)} {L : σ → σ → Prop}
    (refl : ∀ s, L s s) (trans : ∀ {s t u}, L s t → L t u → L s u) {R : σ → α → β → Prop}
    (mono : ∀ {s t a b}, L s t → R s a b → R t a b) {I : σ → Prop} {xs : List α} {s : σ}
    (step : ∀ u, L s u → I u → ∀ a ∈ xs,
      Ends (fun out => L u out.2 ∧ I out.2 ∧ R out.2 a out.1) excused (f u a)) (start : I s) :
    Ends (fun out => L s out.2 ∧ I out.2 ∧ List.Forall₂ (R out.2) xs out.1) excused
      (mapAccumM f s xs) := by
  induction xs generalizing s with
  | nil => exact ⟨refl s, start, .nil⟩
  | cons a rest ih =>
    refine (step s (refl s) start a List.mem_cons_self).bind fun out ⟨grows, keeps, holds⟩ => ?_
    refine (ih (fun u hu hI b hb => step u (trans grows hu) hI b (List.mem_cons_of_mem _ hb))
      keeps).bind fun others ⟨grows', keeps', each⟩ => ?_
    exact ⟨trans grows grows', keeps', .cons (mono grows' holds) each⟩

end Linkage
