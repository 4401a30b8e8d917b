import Linkage.Proofs.FreshNames
import Mathlib.Data.Set.Insert
/-!
The pool without the numbers it keeps. For each stem it goes on at the number after the last one it
gave out, and finds the name that a search through all candidates would find: the numbers it leaves
out are taken, whoever took them and for whatever base and suffix.
-/
namespace Linkage.NamePool

def candidate (base : String) : Option String → Nat → String
  | _, 0 => base
  | none, k + 1 => numbered base k
  | some suffix, 1 => base ++ "_" ++ suffix
  | some suffix, k + 2 => numbered (base ++ "_" ++ suffix) k

/-- The name is a free candidate, and all candidates before it are taken. -/
def FirstFree (taken : Set String) (base : String) (suffix : Option String) (name : String) :
    Prop :=
  ∃ k, name = candidate base suffix k ∧ name ∉ taken ∧ ∀ j < k, candidate base suffix j ∈ taken

inductive Request where
  | reserve (name : String)
  | allocate (base : String) (suffix : Option String)

def serve (p : NamePool) : Request → Option String × NamePool
  | .reserve name => (none, p.reserve name)
  | .allocate base suffix => (some (p.allocate base suffix).1, (p.allocate base suffix).2)

/-- Requests that are served with nothing but the set of taken names: each name that is asked for is
searched from its first candidate on, and the set gains what was reserved or given out. -/
inductive Searches : Set String → List Request → List (Option String) → Set String → Prop
  | nil (taken : Set String) : Searches taken [] [] taken
  | reserve {taken last : Set String} {name : String} {rest : List Request}
      {answers : List (Option String)} (next : Searches (insert name taken) rest answers last) :
      Searches taken (.reserve name :: rest) (none :: answers) last
  | allocate {taken last : Set String} {base name : String} {suffix : Option String}
      {rest : List Request} {answers : List (Option String)}
      (first : FirstFree taken base suffix name)
      (next : Searches (insert name taken) rest answers last) :
      Searches taken (.allocate base suffix :: rest) (some name :: answers) last

def names (p : NamePool) : Set String := {name | name ∈ p.taken}

def Passed (p : NamePool) : Prop :=
  ∀ stem, ∀ k < (p.next.lookup stem).getD 0, numbered stem k ∈ p.taken

variable {p : NamePool}

theorem FirstFree.unique {taken : Set String} {base name other : String} {suffix : Option String}
    (h : FirstFree taken base suffix name) (h' : FirstFree taken base suffix other) :
    name = other := by
  obtain ⟨k, rfl, free, before⟩ := h
  obtain ⟨k', rfl, free', before'⟩ := h'
  rcases Nat.lt_trichotomy k k' with lt | rfl | gt
  · exact absurd (before' k lt) free
  · rfl
  · exact absurd (before k' gt) free'

theorem mem_taken_reserve {name other : String} :
    other ∈ (p.reserve name).taken ↔ other = name ∨ other ∈ p.taken := by
  have shown := p.contains_reserve name other
  rw [Bool.eq_iff_iff] at shown
  simpa [contains, or_comm] using shown

theorem names_reserve (name : String) : (p.reserve name).names = insert name p.names :=
  Set.ext fun _ => mem_taken_reserve

theorem names_allocate (base : String) (suffix : Option String) :
    (p.allocate base suffix).2.names = insert (p.allocate base suffix).1 p.names := by
  refine Set.ext fun other => ?_
  have shown := p.contains_allocate base suffix other
  rw [Bool.eq_iff_iff] at shown
  simpa [names, contains, or_comm] using shown

theorem next_reserve (name : String) : (p.reserve name).next = p.next := by
  unfold reserve
  split
  · rfl
  · rfl

/-- From where it starts to where it ends the search meets only taken names. -/
theorem mem_of_lt_firstFree {taken : List String} {stem : String} {fuel index k : Nat}
    (start : index ≤ k) (h : k < firstFree taken stem fuel index) : numbered stem k ∈ taken := by
  induction fuel generalizing index with
  | zero => exact absurd h (Nat.not_lt_of_le start)
  | succ fuel ih =>
    unfold firstFree at h
    split at h
    · next used =>
      rcases Nat.eq_or_lt_of_le start with rfl | later
      · simpa using used
      · exact ih later h
    · exact absurd h (Nat.not_lt_of_le start)

theorem lookup_filter_ne {entries : List (String × Nat)} {stem other : String}
    (h : other ≠ stem) : (entries.filter (·.1 ≠ stem)).lookup other = entries.lookup other := by
  induction entries with
  | nil => rfl
  | cons entry rest ih =>
    by_cases same : entry.1 = stem
    · have passed : (other == entry.1) = false := by simpa [same] using h
      rw [List.filter_cons_of_neg (by simpa using same), ih, List.lookup_cons, passed]
    · rw [List.filter_cons_of_pos (by simpa using same), List.lookup_cons, List.lookup_cons, ih]

namespace Passed

theorem empty : NamePool.empty.Passed := fun _ _ h => absurd h (Nat.not_lt_zero _)

theorem reserve (h : p.Passed) (name : String) : (p.reserve name).Passed := by
  intro stem k hk
  rw [next_reserve] at hk
  exact mem_taken_reserve.mpr (.inr (h stem k hk))

theorem exists_number (h : p.Passed) (stem : String) :
    ∃ index, (p.allocateNumbered stem).1 = numbered stem index ∧
      (p.allocateNumbered stem).2.next =
        (stem, index + 1) :: p.next.filter (·.1 ≠ stem) ∧
      numbered stem index ∉ p.taken ∧ ∀ k < index, numbered stem k ∈ p.taken := by
  refine ⟨_, rfl, rfl, firstFree_not_mem p.taken stem _, fun k hk => ?_⟩
  rcases Nat.lt_or_ge k ((p.next.lookup stem).getD 0) with left_out | tried
  · exact h stem k left_out
  · exact mem_of_lt_firstFree tried hk

theorem allocateNumbered (h : p.Passed) (stem : String) : (p.allocateNumbered stem).2.Passed := by
  obtain ⟨index, hname, hnext, -, before⟩ := h.exists_number stem
  have grown : ∀ name, name ∈ (p.allocateNumbered stem).2.taken ↔
      name = numbered stem index ∨ name ∈ p.taken := fun name => by
    rw [← hname]
    exact mem_taken_reserve
  intro other k hk
  rw [hnext] at hk
  by_cases same : other = stem
  · subst same
    rw [List.lookup_cons_self, Option.getD_some] at hk
    rcases Nat.eq_or_lt_of_le (Nat.le_of_lt_succ hk) with rfl | smaller
    · exact (grown _).mpr (.inl rfl)
    · exact (grown _).mpr (.inr (before k smaller))
  · have another : (other == stem) = false := beq_eq_false_iff_ne.mpr same
    rw [List.lookup_cons, another, lookup_filter_ne same] at hk
    exact (grown _).mpr (.inr (h other k hk))

theorem allocate (h : p.Passed) (base : String) (suffix : Option String) :
    (p.allocate base suffix).2.Passed := by
  unfold NamePool.allocate
  split
  · exact h.reserve base
  · cases suffix with
    | none => exact h.allocateNumbered base
    | some suffix =>
      simp only
      split
      · exact h.reserve _
      · exact h.allocateNumbered _

theorem firstFree (h : p.Passed) (base : String) (suffix : Option String) :
    FirstFree p.names base suffix (p.allocate base suffix).1 := by
  unfold NamePool.allocate
  split
  · next free =>
    have unused : base ∉ p.taken := by simpa [contains] using free
    exact ⟨0, by cases suffix <;> rfl, unused, fun j hj => absurd hj (Nat.not_lt_zero j)⟩
  · next used =>
    have taken : base ∈ p.taken := by simpa [contains] using used
    cases suffix with
    | none =>
      obtain ⟨index, hname, -, free, before⟩ := h.exists_number base
      refine ⟨index + 1, hname, hname ▸ free, fun j hj => ?_⟩
      cases j with
      | zero => exact taken
      | succ j => exact before j (Nat.lt_of_succ_lt_succ hj)
    | some suffix =>
      simp only
      split
      · next free =>
        have unused : base ++ "_" ++ suffix ∉ p.taken := by simpa [contains] using free
        refine ⟨1, rfl, unused, fun j hj => ?_⟩
        obtain rfl : j = 0 := Nat.lt_one_iff.mp hj
        exact taken
      · next used =>
        have stemTaken : base ++ "_" ++ suffix ∈ p.taken := by simpa [contains] using used
        obtain ⟨index, hname, -, free, before⟩ := h.exists_number (base ++ "_" ++ suffix)
        refine ⟨index + 2, hname, hname ▸ free, fun j hj => ?_⟩
        rcases j with _ | _ | j
        · exact taken
        · exact stemTaken
        · exact before j (by omega)

end Passed

/-- What is served from a pool that has passed only taken names is what the searches give. -/
theorem Passed.searches (h : p.Passed) (requests : List Request) :
    Searches p.names requests (mapAccum serve p requests).1
      (mapAccum serve p requests).2.names := by
  induction requests generalizing p with
  | nil => exact .nil _
  | cons request rest ih =>
    cases request with
    | reserve name =>
      have next := ih (h.reserve name)
      rw [names_reserve] at next
      exact .reserve next
    | allocate base suffix =>
      have next := ih (h.allocate base suffix)
      rw [names_allocate] at next
      exact .allocate (h.firstFree base suffix) next

namespace Searches

variable {taken last last' : Set String} {requests : List Request}
  {answers answers' : List (Option String)}

theorem unique (h : Searches taken requests answers last)
    (h' : Searches taken requests answers' last') : answers = answers' ∧ last = last' := by
  induction h generalizing answers' with
  | nil taken => cases h'; exact ⟨rfl, rfl⟩
  | reserve _ ih =>
    cases h' with
    | reserve next =>
      obtain ⟨rfl, rfl⟩ := ih next
      exact ⟨rfl, rfl⟩
  | allocate first _ ih =>
    cases h' with
    | allocate first' next =>
      obtain rfl := first.unique first'
      obtain ⟨rfl, rfl⟩ := ih next
      exact ⟨rfl, rfl⟩

theorem fresh (h : Searches taken requests answers last) {i : Nat} {name : String}
    (hi : answers[i]? = some (some name)) :
    name ∉ taken ∧ .reserve name ∉ requests.take i ∧ some name ∉ answers.take i := by
  induction h generalizing i with
  | nil taken => cases hi
  | @reserve taken last reserved rest answers _ ih =>
    cases i with
    | zero => cases hi
    | succ i =>
      obtain ⟨free, unreserved, unanswered⟩ := ih hi
      rw [Set.mem_insert_iff, not_or] at free
      simp [free.1, free.2, unreserved, unanswered]
  | @allocate taken last base given suffix rest answers first _ ih =>
    cases i with
    | zero =>
      obtain ⟨k, -, free, -⟩ := first
      cases hi
      simp [free]
    | succ i =>
      obtain ⟨free, unreserved, unanswered⟩ := ih hi
      rw [Set.mem_insert_iff, not_or] at free
      simp [free.1, free.2, unreserved, unanswered]

end Searches

/-- Serving requests from the empty pool is searching for each name from its first candidate on,
with the set of the names that are taken by then: the answers and the names that are taken in the
end are those of the searches, and of no others. No name is given out twice, and none that was
reserved before. -/
theorem allocation_is_search (requests : List Request) :
    (∀ answers taken, Searches ∅ requests answers taken ↔
      answers = (mapAccum serve empty requests).1 ∧
        taken = (mapAccum serve empty requests).2.names) ∧
    ∀ (i : Nat) (name : String), (mapAccum serve empty requests).1[i]? = some (some name) →
      .reserve name ∉ requests.take i ∧
        some name ∉ (mapAccum serve empty requests).1.take i := by
  have searched : Searches ∅ requests (mapAccum serve empty requests).1
      (mapAccum serve empty requests).2.names := by
    have nothing : empty.names = ∅ := Set.eq_empty_of_forall_notMem fun _ => List.not_mem_nil
    exact nothing ▸ Passed.empty.searches requests
  refine ⟨fun answers taken => ⟨fun h => h.unique searched, ?_⟩, fun i name hi => ?_⟩
  · rintro ⟨rfl, rfl⟩
    exact searched
  · exact (searched.fresh hi).2

def fooRequests : List Request :=
  [.reserve "Foo", .reserve "Foo_b_1", .allocate "Foo" (some "b"), .allocate "Foo" (some "b"),
    .allocate "Foo_b" none, .allocate "Foo" (some "b")]

/-- Two pairs of a base and a suffix with one stem take its numbers in turn. -/
theorem allocation_is_search_foo :
    ∃ taken, Searches ∅ fooRequests
      [none, none, some "Foo_b", some "Foo_b_0", some "Foo_b_2", some "Foo_b_3"] taken := by
  have answers : (mapAccum serve empty fooRequests).1 =
      [none, none, some "Foo_b", some "Foo_b_0", some "Foo_b_2", some "Foo_b_3"] := by
    decide +kernel
  exact ⟨_, ((allocation_is_search fooRequests).1 _ _).mpr ⟨answers.symm, rfl⟩⟩

end Linkage.NamePool
