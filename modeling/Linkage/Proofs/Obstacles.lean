import Linkage.Proofs.Descents
/-!
What keeps a name or a type from being written out. A name may lack a text. The way down from a type
may come to an id without a type, to a type that contains itself, or to a class whose name lacks a
text. If it comes to none of these, the type is written.
-/
namespace Linkage

def Lexicon.Lacks (l : Lexicon) (name : Name) (fault : Fault) : Prop :=
  l.size ≤ name.index ∧ fault = .unknownName name.index

theorem Lexicon.text_reads (l : Lexicon) (name : Name) :
    Ends (fun _ => ∀ fault, ¬ l.Lacks name fault) (l.Lacks name) (l.text name) := by
  refine (l.text_ends name).imp (fun text htext fault lacks => ?_) fun _ h => h
  exact Nat.not_lt_of_le lacks.1 (lt_size_of_text htext)

theorem writes_both {α β : Type} {write : α → Checked String} {bad : α → Fault → Prop}
    (ends : ∀ a, Ends (fun _ => ∀ fault, ¬ bad a fault) (bad a) (write a)) (l r : α)
    (next : String → String → β) {answer : Checked β} (h : answer = (do
      let l ← write l
      let r ← write r
      return next l r)) :
    (∃ fault, answer = .error fault ∧ ∃ a ∈ [l, r], bad a fault) ∨
      (∀ a ∈ [l, r], ∀ fault, ¬ bad a fault) ∧ ∃ lt rt, answer = .ok (next lt rt) := by
  subst h
  have left := ends l
  have right := ends r
  cases hl : write l with
  | error fault =>
    rw [hl] at left
    exact .inl ⟨fault, rfl, l, List.mem_cons_self, left⟩
  | ok lt =>
    cases hr : write r with
    | error fault =>
      rw [hr] at right
      exact .inl ⟨fault, rfl, r, List.mem_cons_of_mem _ List.mem_cons_self, right⟩
    | ok rt =>
      rw [hl] at left
      rw [hr] at right
      refine .inr ⟨fun a ha => ?_, lt, rt, rfl⟩
      rcases List.mem_pair.mp ha with rfl | rfl
      · exact left
      · exact right

namespace TyStore

/-- Something is wrong with the type or with one inside it, and the fault says what. -/
inductive Obstacle (s : TyStore) (lexicon : Lexicon) (id : TyId) : Fault → Prop
  | missing {part : TyId} (inside : Relation.ReflTransGen s.PartOf part id)
      (absent : s.size ≤ part.index) : Obstacle s lexicon id (.unknownType part.index)
  | cyclic {part : TyId} (inside : Relation.ReflTransGen s.PartOf part id)
      (cycle : Relation.TransGen s.PartOf part part) : Obstacle s lexicon id .endless
  | nameless {part : TyId} {name : Name} (inside : Relation.ReflTransGen s.PartOf part id)
      (stored : s.get part = .ok (.instanceOf name)) (unknown : lexicon.size ≤ name.index) :
    Obstacle s lexicon id (.unknownName name.index)

variable {s : TyStore} {lexicon : Lexicon} {fuel : Nat} {id part : TyId} {fault : Fault}

theorem Descends.exists_missing (way : s.Descends fuel id fault) (ends : fault ≠ .endless) :
    ∃ part, Relation.ReflTransGen s.PartOf part id ∧ s.size ≤ part.index ∧
      fault = .unknownType part.index := by
  induction way with
  | spent id => exact absurd rfl ends
  | unknown fuel id missing => exact ⟨id, .refl, missing, rfl⟩
  | part below _ ih =>
    obtain ⟨part, inside, absent, rfl⟩ := ih ends
    exact ⟨part, inside.tail below, absent, rfl⟩

theorem Descends.obstacle (way : s.Descends s.depth id fault) (lexicon : Lexicon) :
    s.Obstacle lexicon id fault := by
  by_cases endless : fault = .endless
  · subst endless
    by_contra free
    have long : s.depth ≤ s.size :=
      (Echoes.refl s).le_size (fun low inside cycle => free (.cyclic inside cycle)) way
    exact absurd long (Nat.not_succ_le_self s.size)
  · obtain ⟨part, inside, absent, rfl⟩ := way.exists_missing endless
    exact .missing inside absent

theorem display_obstacle (s : TyStore) (lexicon : Lexicon) (id : TyId) :
    Ends (fun _ => True) (s.Obstacle lexicon id) (s.display lexicon id) := by
  refine (s.displayWithin_ends lexicon s.depth id).imp (fun _ h => h) ?_
  rintro fault (way | ⟨whole, name, inside, stored, unknown, rfl⟩)
  · exact way.obstacle lexicon
  · exact .nameless inside stored unknown

/-- A part of what is written is written with less fuel. -/
theorem exists_less_of_partOf (h : ∃ text, s.displayWithin lexicon fuel id = .ok text)
    (below : s.PartOf part id) :
    ∃ less < fuel, ∃ text, s.displayWithin lexicon less part = .ok text := by
  obtain ⟨text, h⟩ := h
  obtain ⟨ty, hty, hpart⟩ := below
  cases fuel with
  | zero => cases h
  | succ fuel =>
    refine ⟨fuel, Nat.lt_succ_self fuel, ?_⟩
    simp only [displayWithin, hty, ok_bind] at h
    cases ty with
    | list element =>
      obtain rfl := List.mem_singleton.mp hpart
      obtain ⟨text, htext, -⟩ := bind_eq_ok.mp h
      exact ⟨text, htext⟩
    | map key value =>
      obtain ⟨keyText, hkey, h⟩ := bind_eq_ok.mp h
      obtain ⟨valueText, hvalue, -⟩ := bind_eq_ok.mp h
      rcases List.mem_pair.mp hpart with rfl | rfl
      · exact ⟨keyText, hkey⟩
      · exact ⟨valueText, hvalue⟩
    | tuple elements =>
      obtain ⟨texts, htexts, -⟩ := bind_eq_ok.mp h
      obtain ⟨text, -, htext⟩ := forall₂_exists_right (mapM_eq_ok.mp htexts) hpart
      exact ⟨text, htext⟩
    | _ => cases hpart

theorem exists_less_of_transGen (h : ∃ text, s.displayWithin lexicon fuel id = .ok text)
    (below : Relation.TransGen s.PartOf part id) :
    ∃ less < fuel, ∃ text, s.displayWithin lexicon less part = .ok text := by
  induction below generalizing fuel with
  | single last => exact exists_less_of_partOf h last
  | tail _ last ih =>
    obtain ⟨less, hless, written⟩ := exists_less_of_partOf h last
    obtain ⟨lesser, hlesser, written⟩ := ih written
    exact ⟨lesser, Nat.lt_trans hlesser hless, written⟩

/-- What contains itself would take less fuel than it takes. -/
theorem not_cyclic_of_displayWithin (cycle : Relation.TransGen s.PartOf id id) :
    ¬ ∃ text, s.displayWithin lexicon fuel id = .ok text := by
  induction fuel using Nat.strong_induction_on with
  | _ fuel ih =>
    intro written
    obtain ⟨less, hless, written⟩ := exists_less_of_transGen written cycle
    exact ih less hless written

theorem not_obstacle_of_display {text : String} (h : s.display lexicon id = .ok text) :
    ¬ s.Obstacle lexicon id fault := by
  have inner : ∀ part, Relation.ReflTransGen s.PartOf part id →
      ∃ fuel text, s.displayWithin lexicon fuel part = .ok text := by
    intro part inside
    rcases Relation.reflTransGen_iff_eq_or_transGen.mp inside with rfl | below
    · exact ⟨s.depth, text, h⟩
    · obtain ⟨less, -, written⟩ := exists_less_of_transGen ⟨text, h⟩ below
      exact ⟨less, written⟩
  intro obstacle
  cases obstacle with
  | @missing part inside absent =>
    obtain ⟨fuel, text, written⟩ := inner part inside
    cases fuel with
    | zero => cases written
    | succ fuel =>
      obtain ⟨ty, hty, -⟩ := bind_eq_ok.mp written
      exact Nat.not_lt_of_le absent (lt_size_of_get hty)
  | cyclic inside cycle =>
    obtain ⟨fuel, written⟩ := inner _ inside
    exact not_cyclic_of_displayWithin cycle written
  | nameless inside stored unknown =>
    obtain ⟨fuel, text, written⟩ := inner _ inside
    cases fuel with
    | zero => cases written
    | succ fuel =>
      simp only [displayWithin, stored, ok_bind] at written
      obtain ⟨_, htext, -⟩ := bind_eq_ok.mp written
      exact Nat.not_lt_of_le unknown (Lexicon.lt_size_of_text htext)

theorem display_reads (s : TyStore) (lexicon : Lexicon) (id : TyId) :
    Ends (fun _ => ∀ fault, ¬ s.Obstacle lexicon id fault) (s.Obstacle lexicon id)
      (s.display lexicon id) := by
  have ends := s.display_obstacle lexicon id
  cases h : s.display lexicon id with
  | ok text => exact fun fault => not_obstacle_of_display h
  | error fault =>
    rw [h] at ends
    exact ends

end TyStore

end Linkage
