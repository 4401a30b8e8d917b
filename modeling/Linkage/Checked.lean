/-!
Computations that stop at a broken handle, and lists processed from left to right with a state
passed along. A pass over a design never repairs a broken handle: it stops with the fault that
names it.
-/
namespace Linkage

/-- The ways in which data can break the bookkeeping every pass relies on. -/
inductive Fault where
  | vacant (slot : Nat)
  | unknownType (id : Nat)
  | unknownName (index : Nat)
  | mixedFiles
  | columnOverflow
  | countUnderflow
  | countOverflow
  /-- A type or an operation contains itself. -/
  | endless
  | outOfRange (place : Nat)
  /-- A text is cut where no character ends. -/
  | splitCharacter
deriving DecidableEq

def Fault.message? : Fault → Option String
  | .vacant slot => some s!"arena handle {slot} is vacant"
  | _ => none

abbrev Checked := Except Fault

def mapAccum {α β σ : Type} (f : σ → α → β × σ) : σ → List α → List β × σ
  | s, [] => ([], s)
  | s, a :: rest =>
    let (b, s) := f s a
    let (bs, s) := mapAccum f s rest
    (b :: bs, s)

def mapAccumM {α β σ : Type} (f : σ → α → Checked (β × σ)) : σ → List α → Checked (List β × σ)
  | s, [] => .ok ([], s)
  | s, a :: rest => do
    let (b, s) ← f s a
    let (bs, s) ← mapAccumM f s rest
    return (b :: bs, s)

theorem length_mapAccum {α β σ : Type} (f : σ → α → β × σ) (xs : List α) (s : σ) :
    (mapAccum f s xs).1.length = xs.length := by
  induction xs generalizing s with
  | nil => rfl
  | cons a rest ih => simp [mapAccum, ih]

theorem mapAccum_append {α β σ : Type} (f : σ → α → β × σ) (xs ys : List α) (s : σ) :
    mapAccum f s (xs ++ ys) =
      ((mapAccum f s xs).1 ++ (mapAccum f (mapAccum f s xs).2 ys).1,
        (mapAccum f (mapAccum f s xs).2 ys).2) := by
  induction xs generalizing s with
  | nil => rfl
  | cons a rest ih => simp only [List.cons_append, mapAccum, ih]

theorem length_mapAccumM {α β σ : Type} {f : σ → α → Checked (β × σ)} {xs : List α} {s t : σ}
    {ys : List β} (h : mapAccumM f s xs = .ok (ys, t)) : ys.length = xs.length := by
  induction xs generalizing s ys with
  | nil => cases h; rfl
  | cons a rest ih =>
    simp only [mapAccumM, bind, Except.bind] at h
    split at h
    · cases h
    · split at h
      · cases h
      · cases h
        simp only [List.length_cons, ih ‹_›]

end Linkage
