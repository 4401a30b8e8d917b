import Linkage.Link.Run
import Mathlib.Data.List.Nodup
import Mathlib.Data.List.Perm.Subperm
import Std.Data.String.ToNat
/-!
Fresh names. Among the candidates for a name one is always free: there are more of them than names
that are taken, and no two of them are alike.
-/
namespace Linkage

namespace NamePool

theorem numbered_inj {stem : String} {i j : Nat} : numbered stem i = numbered stem j ↔ i = j := by
  constructor
  · intro h
    have same : toString i = toString j := (String.append_right_inj _).mp h
    exact Nat.repr_injective same
  · rintro rfl
    rfl

theorem firstFree_free {taken : List String} {stem : String} {fuel index : Nat}
    (h : firstFree taken stem fuel index ≠ index + fuel) :
    numbered stem (firstFree taken stem fuel index) ∉ taken := by
  induction fuel generalizing index with
  | zero => exact absurd rfl h
  | succ fuel ih =>
    unfold firstFree at h ⊢
    split
    · next used =>
      rw [if_pos used] at h
      exact ih fun heq => h (by rw [heq]; omega)
    · next unused => simpa using unused

theorem firstFree_passes {taken : List String} {stem : String} {fuel index : Nat}
    (h : firstFree taken stem fuel index = index + fuel) :
    ∀ k < fuel, numbered stem (index + k) ∈ taken := by
  induction fuel generalizing index with
  | zero => intro k hk; exact absurd hk (Nat.not_lt_zero k)
  | succ fuel ih =>
    unfold firstFree at h
    split at h
    · next used =>
      intro k hk
      cases k with
      | zero => simpa using used
      | succ k =>
        have later := ih (by rw [h]; omega) k (Nat.lt_of_succ_lt_succ hk)
        rwa [Nat.add_right_comm, Nat.add_assoc] at later
    · omega

/-- The search ends at a free number. If it ran out of fuel, the candidates it passed are as many
as the names that are taken, so the next one is not among these. -/
theorem firstFree_not_mem (taken : List String) (stem : String) (index : Nat) :
    numbered stem (firstFree taken stem taken.length index) ∉ taken := by
  by_cases out : firstFree taken stem taken.length index = index + taken.length
  · intro hmem
    have passed := firstFree_passes out
    let candidates := (List.range (taken.length + 1)).map fun k => numbered stem (index + k)
    have distinct : candidates.Nodup := by
      refine List.Nodup.map (fun i j hij => ?_) List.nodup_range
      have := numbered_inj.mp hij
      omega
    have used : candidates ⊆ taken := by
      intro name hname
      obtain ⟨k, hk, rfl⟩ := List.mem_map.mp hname
      have hk' := List.mem_range.mp hk
      rcases Nat.lt_or_ge k taken.length with hlt | hge
      · exact passed k hlt
      · obtain rfl : k = taken.length := by omega
        exact out ▸ hmem
    have count := (distinct.subperm used).length_le
    simp only [candidates, List.length_map, List.length_range] at count
    omega
  · exact firstFree_free out

theorem contains_eq_false_iff {p : NamePool} {name : String} :
    p.contains name = false ↔ name ∉ p.taken := by
  simp [contains]

theorem allocate_fresh (p : NamePool) (base : String) (suffix : Option String) :
    p.contains (p.allocate base suffix).1 = false := by
  have counted : ∀ stem, p.contains (p.allocateNumbered stem).1 = false := fun stem =>
    contains_eq_false_iff.mpr (firstFree_not_mem p.taken stem _)
  unfold allocate
  split
  · next free => simpa using free
  · split
    · exact counted base
    · next suffix =>
      simp only
      split
      · next free => simpa using free
      · exact counted _

theorem contains_allocate (p : NamePool) (base : String) (suffix : Option String)
    (other : String) : (p.allocate base suffix).2.contains other =
      (p.contains other || other == (p.allocate base suffix).1) := by
  have counted : ∀ stem, (p.allocateNumbered stem).2.contains other =
      (p.contains other || other == (p.allocateNumbered stem).1) := fun stem =>
    contains_reserve p (p.allocateNumbered stem).1 other
  unfold allocate
  split
  · exact contains_reserve p base other
  · split
    · exact counted base
    · next suffix =>
      simp only
      split
      · exact contains_reserve p _ other
      · exact counted _

/-- The texts that are made for a base and a suffix: the two joined, then the same with a number.
Without a suffix the numbers follow the base. -/
def Derived (base : String) : Option String → String → Prop
  | none, text => ∃ index, text = numbered base index
  | some suffix, text => text = base ++ "_" ++ suffix ∨
      ∃ index, text = numbered (base ++ "_" ++ suffix) index

theorem allocate_derived {p : NamePool} {base : String} (taken : p.contains base = true)
    (suffix : Option String) : Derived base suffix (p.allocate base suffix).1 := by
  unfold allocate
  rw [taken]
  cases suffix with
  | none => exact ⟨_, rfl⟩
  | some suffix =>
    simp only [Bool.not_true, Bool.false_eq_true, if_false]
    split
    · exact .inl rfl
    · exact .inr ⟨_, rfl⟩

end NamePool

namespace Lexicon

/-- One lexicon has the names of another under the same texts. -/
structure Extends (l l' : Lexicon) : Prop where
  size : l.size ≤ l'.size
  text : ∀ name : Name, name.index < l.size → l'.text name = l.text name

theorem Extends.refl (l : Lexicon) : l.Extends l := ⟨Nat.le_refl _, fun _ _ => rfl⟩

theorem Extends.trans {l l' l'' : Lexicon} (h : l.Extends l') (h' : l'.Extends l'') :
    l.Extends l'' where
  size := Nat.le_trans h.size h'.size
  text name hname := by
    rw [h'.text name (Nat.lt_of_lt_of_le hname h.size), h.text name hname]

theorem extends_intern (l : Lexicon) (text : String) : l.Extends (l.intern text).2 where
  size := by
    unfold intern
    split
    · exact Nat.le_refl _
    · simp [size]
  text _ hname := text_intern_of_lt l text hname

theorem lt_size_intern (l : Lexicon) (text : String) :
    (l.intern text).1.index < (l.intern text).2.size := by
  unfold intern
  split
  · next name h => exact (Array.getElem?_eq_some_iff.mp (get?_eq_some h)).1
  · simp [size]

theorem text_eq_ok_iff {l : Lexicon} {name : Name} {text : String} :
    l.text name = .ok text ↔ l.texts.toList[name.index]? = some text := by
  unfold Lexicon.text
  rw [Array.getElem?_toList]
  cases l.texts[name.index]? <;> simp

theorem text_inj {l : Lexicon} {a b : Name} {text : String} (ha : l.text a = .ok text)
    (hb : l.text b = .ok text) : a = b := by
  rw [text_eq_ok_iff] at ha hb
  have inside := (List.getElem?_eq_some_iff.mp ha).1
  have index := (List.getElem?_inj inside l.nodup).mp (ha.trans hb.symm)
  cases a
  cases b
  exact congrArg Name.mk index

theorem Extends.text_eq_ok {l l' : Lexicon} (h : l.Extends l') {name : Name} {text : String}
    (known : l.text name = .ok text) : l'.text name = .ok text :=
  (h.text name (lt_size_of_text known)).trans known

end Lexicon

theorem assignTags_lexicon (stem : String) (units : List LinkUnit) (count : Nat)
    (lexicon : Lexicon) : lexicon.Extends (assignTags stem count lexicon units).2 := by
  induction units generalizing count lexicon with
  | nil => exact .refl lexicon
  | cons u rest ih =>
    unfold assignTags
    cases u.tag with
    | some tag => exact ih count lexicon
    | none => exact (lexicon.extends_intern _).trans (ih (count + 1) _)

/-- A tag was there before, or it is a new name. -/
theorem assignTags_given (stem : String) (units : List LinkUnit) (count : Nat) (lexicon : Lexicon) :
    ∀ u' ∈ (assignTags stem count lexicon units).1, ∀ tag ∈ u'.tag, (∃ u ∈ units, tag ∈ u.tag) ∨
      tag.index < (assignTags stem count lexicon units).2.size := by
  induction units generalizing count lexicon with
  | nil => exact fun _ hu => absurd hu List.not_mem_nil
  | cons v rest ih =>
    have later : ∀ {tag : Name} {size}, (∃ u ∈ rest, tag ∈ u.tag) ∨ tag.index < size →
        (∃ u ∈ v :: rest, tag ∈ u.tag) ∨ tag.index < size :=
      fun h => h.imp_left fun ⟨u, hu, htag⟩ => ⟨u, List.mem_cons_of_mem v hu, htag⟩
    unfold assignTags
    cases hv : v.tag with
    | some given =>
      exact List.forall_mem_cons.mpr ⟨fun tag htag => .inl ⟨v, List.mem_cons_self, htag⟩,
        fun u hu tag htag => later (ih count lexicon u hu tag htag)⟩
    | none =>
      refine List.forall_mem_cons.mpr ⟨fun tag htag => ?_,
        fun u hu tag htag => later (ih (count + 1) _ u hu tag htag)⟩
      cases htag
      exact .inr (Nat.lt_of_lt_of_le (Lexicon.lt_size_intern lexicon _)
        (assignTags_lexicon stem rest (count + 1) _).size)

theorem assignTags_known {units : List LinkUnit} {lexicon : Lexicon}
    (known : ∀ u ∈ units, ∀ tag ∈ u.tag, tag.index < lexicon.size) (stem : String) (count : Nat) :
    ∀ u ∈ (assignTags stem count lexicon units).1, ∀ tag ∈ u.tag,
      tag.index < (assignTags stem count lexicon units).2.size := by
  intro u hu tag htag
  rcases assignTags_given stem units count lexicon u hu tag htag with ⟨v, hv, given⟩ | inside
  · have grown := (assignTags_lexicon stem units count lexicon).size
    exact Nat.lt_of_lt_of_le (known v hv tag given) grown
  · exact inside

theorem text_assignTags {stem : String} {units : List LinkUnit} {count : Nat} {lexicon : Lexicon}
    (known : ∀ u ∈ units, ∀ tag ∈ u.tag, tag.index < lexicon.size) {unit : Nat} {u u' : LinkUnit}
    (hu : units[unit]? = some u) (hu' : (assignTags stem count lexicon units).1[unit]? = some u')
    {tag : Name} (htag : u'.tag = some tag) :
    (assignTags stem count lexicon units).2.text tag = match u.tag with
      | some given => lexicon.text given
      | none => .ok (NamePool.numbered stem (count + (units.take unit).countP (·.tag.isNone))) := by
  induction units generalizing count lexicon unit with
  | nil => cases hu
  | cons v rest ih =>
    have knownRest := fun w hw => known w (List.mem_cons_of_mem v hw)
    unfold assignTags at hu' ⊢
    cases hv : v.tag with
    | some given =>
      simp only [hv] at hu' ⊢
      cases unit with
      | zero =>
        cases hu
        cases hu'
        obtain rfl : given = tag := Option.some.inj (hv.symm.trans htag)
        simp only [hv]
        exact (assignTags_lexicon stem rest count lexicon).text given
          (known u List.mem_cons_self given hv)
      | succ unit =>
        rw [ih knownRest hu hu']
        simp [hv]
    | none =>
      simp only [hv] at hu' ⊢
      have grown := lexicon.extends_intern (NamePool.numbered stem count)
      cases unit with
      | zero =>
        cases hu
        cases hu'
        cases htag
        simp only [hv]
        rw [(assignTags_lexicon stem rest (count + 1) _).text _ (lexicon.lt_size_intern _),
          Lexicon.text_intern]
        rfl
      | succ unit =>
        rw [ih (fun w hw tag htag => Nat.lt_of_lt_of_le (knownRest w hw tag htag) grown.size)
          hu hu']
        cases given : u.tag with
        | some name =>
          exact grown.text name (knownRest u (List.mem_of_getElem? hu) name given)
        | none =>
          simp [hv, Nat.add_assoc, Nat.add_comm 1]

end Linkage
