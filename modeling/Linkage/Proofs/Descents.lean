import Linkage.Proofs.Outcomes
import Linkage.Proofs.TySubstitution
/-!
Going down into types that may mention what is not there. In a store in which no type contains
itself the way down ends: at types without parts, or at an id without a type. Renaming classes adds
types to the store on the way, and an id that led nowhere may come to lead to one of them. But what
is added stands for a tree as high as that of a type from before, so no way down gets longer than
the store was large at first.
-/
namespace Linkage

theorem Lexicon.text_ends (l : Lexicon) (name : Name) :
    Ends (fun text => l.text name = .ok text)
      (fun fault => l.size ≤ name.index ∧ fault = .unknownName name.index) (l.text name) := by
  unfold text
  cases h : l.texts[name.index]? with
  | none => exact ⟨Array.getElem?_eq_none_iff.mp h, rfl⟩
  | some text => exact rfl

namespace TyStore

/-- Going so many types down from an id one comes to a fault: an id without a type, or there are
more types below. -/
inductive Descends (s : TyStore) : Nat → TyId → Fault → Prop
  | spent (id : TyId) : Descends s 0 id .endless
  | unknown (fuel : Nat) (id : TyId) (missing : s.size ≤ id.index) :
    Descends s (fuel + 1) id (.unknownType id.index)
  | part {fuel : Nat} {id part : TyId} {fault : Fault} (below : s.PartOf part id)
    (h : Descends s fuel part fault) : Descends s (fuel + 1) id fault

theorem get_ends (s : TyStore) (id : TyId) :
    Ends (fun ty => s.get id = .ok ty)
      (fun fault => s.size ≤ id.index ∧ fault = .unknownType id.index) (s.get id) := by
  unfold get
  cases h : s.types[id.index]? with
  | none => exact ⟨Array.getElem?_eq_none_iff.mp h, rfl⟩
  | some ty => simp [Ends]

section

variable {s : TyStore} {fuel : Nat} {id : TyId} {α : Type}

/-- A class on the way down has a name that the lexicon does not have. -/
def Nameless (s : TyStore) (lexicon : Lexicon) (id : TyId) (fault : Fault) : Prop :=
  ∃ whole name, Relation.ReflTransGen s.PartOf whole id ∧ s.get whole = .ok (.instanceOf name) ∧
    lexicon.size ≤ name.index ∧ fault = .unknownName name.index

theorem descends_of_get {f : Ty → Checked α}
    (next : ∀ ty, s.get id = .ok ty →
      Ends (fun _ => True) (fun fault => ∃ part ∈ ty.parts, s.Descends fuel part fault) (f ty)) :
    Ends (fun _ => True) (s.Descends (fuel + 1) id) (s.get id >>= f) := by
  refine ((s.get_ends id).imp (fun _ h => h) ?_).bind fun ty hty =>
    (next ty hty).imp (fun _ h => h) ?_
  · rintro _ ⟨missing, rfl⟩
    exact .unknown fuel id missing
  · rintro fault ⟨part, hpart, h⟩
    exact .part ⟨ty, hty, hpart⟩ h

theorem displayWithin_ends (s : TyStore) (lexicon : Lexicon) (fuel : Nat) (id : TyId) :
    Ends (fun _ => True) (fun fault => s.Descends fuel id fault ∨ s.Nameless lexicon id fault)
      (s.displayWithin lexicon fuel id) := by
  induction fuel generalizing id with
  | zero => exact .inl (.spent id)
  | succ fuel ih =>
    refine ((s.get_ends id).imp (fun _ h => h) ?_).bind fun ty hty => ?_
    · rintro _ ⟨missing, rfl⟩
      exact .inl (.unknown fuel id missing)
    have atPart : ∀ part ∈ ty.parts, Ends (fun _ => True)
        (fun fault => s.Descends (fuel + 1) id fault ∨ s.Nameless lexicon id fault)
        (s.displayWithin lexicon fuel part) := by
      intro part hpart
      have below : s.PartOf part id := ⟨ty, hty, hpart⟩
      refine (ih part).imp (fun _ h => h) ?_
      rintro fault (way | ⟨whole, name, way, found, unknown, rfl⟩)
      · exact .inl (.part below way)
      · exact .inr ⟨whole, name, way.tail below, found, unknown, rfl⟩
    cases ty with
    | word width signed => cases signed <;> trivial
    | instanceOf name =>
      refine ((lexicon.text_ends name).imp (fun _ h => h) ?_).bind fun _ _ => trivial
      rintro _ ⟨unknown, rfl⟩
      exact .inr ⟨id, name, .refl, hty, unknown, rfl⟩
    | list element => exact (atPart element List.mem_cons_self).bind fun _ _ => trivial
    | map key value =>
      refine (atPart key List.mem_cons_self).bind fun _ _ => ?_
      exact (atPart value (List.mem_cons_of_mem _ List.mem_cons_self)).bind fun _ _ => trivial
    | tuple elements => exact (Ends.mapM atPart).bind fun _ _ => trivial
    | _ => trivial

theorem classesWithin_ends (s : TyStore) (fuel : Nat) (id : TyId) :
    Ends (fun _ => True) (s.Descends fuel id) (s.classesWithin fuel id) := by
  induction fuel generalizing id with
  | zero => exact .spent id
  | succ fuel ih =>
    refine descends_of_get fun ty hty => ?_
    have atPart : ∀ part ∈ ty.parts, Ends (fun _ => True)
        (fun fault => ∃ part ∈ ty.parts, s.Descends fuel part fault) (s.classesWithin fuel part) :=
      fun part hpart => (ih part).imp (fun _ h => h) fun _ h => ⟨part, hpart, h⟩
    split
    · trivial
    · exact (Ends.mapM atPart).bind fun _ _ => trivial

end

/-- The store `v` has grown out of `s`: it has the types of `s` under their ids, and each type that
was added since stands in `v` for a tree as high as that of a type of `s`. -/
structure Echoes (s v : TyStore) : Prop where
  types : s.Extends v
  older : s.size ≤ v.size
  heights : ∀ id, s.size ≤ id.index → id.index < v.size →
    ∃ t, v.Denotes id t ∧ ∃ old t', old.index < s.size ∧ v.Denotes old t' ∧ t'.height = t.height

/-- In the store `s` the ids `id` and `id'` stand for trees of the same height. -/
def Mates (s : TyStore) (id id' : TyId) : Prop :=
  ∃ t t', s.Denotes id t ∧ s.Denotes id' t' ∧ t'.height = t.height

theorem Mates.extend {s s' : TyStore} {id id' : TyId} (h : s.Mates id id') (hs : s.Extends s') :
    s'.Mates id id' := by
  obtain ⟨t, t', ht, ht', same⟩ := h
  exact ⟨t, t', ht.extend hs, ht'.extend hs, same⟩

theorem size_of_intern {s s' : TyStore} {ty : Ty} {id : TyId} (h : s.intern ty = (id, s')) :
    s' = s ∨ id = ⟨s.size⟩ ∧ s'.size = s.size + 1 := by
  unfold intern at h
  split at h
  · cases h
    exact .inl rfl
  · cases h
    exact .inr ⟨rfl, Array.size_push ..⟩

namespace Echoes

variable {s v w : TyStore} {id : TyId} {t : TyTree}

theorem refl (s : TyStore) : s.Echoes s :=
  ⟨.refl s, Nat.le_refl _, fun _ beyond inside => absurd inside (Nat.not_lt_of_le beyond)⟩

theorem exists_old (h : s.Echoes v) (ht : v.Denotes id t) :
    ∃ old t', old.index < s.size ∧ v.Denotes old t' ∧ t'.height = t.height := by
  by_cases old : id.index < s.size
  · exact ⟨id, t, old, ht, rfl⟩
  · obtain ⟨t', ht', found⟩ := h.heights id (Nat.le_of_not_lt old) ht.lt_size
    rwa [ht.unique ht']

theorem intern (h : s.Echoes v) {ty : Ty} {new : TyId} (added : v.intern ty = (new, w))
    {id : TyId} (inside : id.index < v.size) (mates : w.Mates id new) : s.Echoes w := by
  have grows : v.Extends w := extends_of_intern added
  rcases size_of_intern added with rfl | ⟨rfl, size⟩
  · exact h
  · refine ⟨h.types.trans grows, by have := h.older; omega, fun other beyond within => ?_⟩
    by_cases before : other.index < v.size
    · obtain ⟨t, ht, old, t', hold, ht', same⟩ := h.heights other beyond before
      exact ⟨t, ht.extend grows, old, t', hold, ht'.extend grows, same⟩
    · obtain ⟨t, t', ht, ht', same⟩ := mates
      obtain rfl : other = ⟨v.size⟩ := by
        cases other
        simp only [TyId.mk.injEq] at *
        omega
      by_cases old : id.index < s.size
      · exact ⟨t', ht', id, t, old, ht, same.symm⟩
      · obtain ⟨u, hu, old, u', hold, hu', same'⟩ := h.heights id (Nat.le_of_not_lt old) inside
        obtain rfl := ht.unique (hu.extend grows)
        exact ⟨t', ht', old, u', hold, hu'.extend grows, same'.trans same.symm⟩

end Echoes

theorem PartOf.denotes {s : TyStore} {part whole : TyId} (h : s.PartOf part whole) {t : TyTree}
    (ht : s.Denotes whole t) : ∃ t', s.Denotes part t' ∧ t'.height < t.height := by
  obtain ⟨ty, hty, hpart⟩ := h
  obtain ⟨former, parts⟩ := t
  obtain ⟨ty', hty', -, hparts⟩ := denotes_node_iff.mp ht
  obtain rfl := Except.ok.inj (hty.symm.trans hty')
  obtain ⟨t', hmem, ht'⟩ := forall₂_exists_right hparts hpart
  exact ⟨t', ht', Nat.lt_succ_of_le (TyTree.height_le_heightOfAll hmem)⟩

theorem denotes_of_transGen {s : TyStore} {low high : TyId}
    (h : Relation.TransGen s.PartOf low high) {t : TyTree} (ht : s.Denotes high t) :
    ∃ t', s.Denotes low t' ∧ t'.height < t.height := by
  induction h generalizing t with
  | single last => exact last.denotes ht
  | tail _ last ih =>
    obtain ⟨between, hbetween, less⟩ := last.denotes ht
    obtain ⟨t', ht', less'⟩ := ih hbetween
    exact ⟨t', ht', Nat.lt_trans less' less⟩

namespace Echoes

variable {s v : TyStore}

/-- What stands for no tree was there from the start, with the parts it has. -/
theorem partOf (h : s.Echoes v) {part whole : TyId} (below : v.PartOf part whole)
    (dangling : ¬ ∃ t, v.Denotes whole t) : s.PartOf part whole ∧ whole.index < s.size := by
  obtain ⟨ty, hty, hpart⟩ := below
  have old : whole.index < s.size := by
    by_contra beyond
    obtain ⟨t, ht, -⟩ := h.heights whole (Nat.le_of_not_lt beyond) (lt_size_of_get hty)
    exact dangling ⟨t, ht⟩
  obtain ⟨ty', hty'⟩ := exists_get whole old
  obtain rfl := Except.ok.inj (hty.symm.trans (h.types whole ty' hty'))
  exact ⟨⟨ty, hty', hpart⟩, old⟩

theorem acyclic (h : s.Echoes v) (acyclic : s.Acyclic) : v.Acyclic := by
  intro id cycle
  by_cases finite : ∃ t, v.Denotes id t
  · obtain ⟨t, ht⟩ := finite
    obtain ⟨t', ht', less⟩ := denotes_of_transGen cycle ht
    rw [ht.unique ht'] at less
    exact Nat.lt_irrefl _ less
  · have before : ∀ high, Relation.TransGen v.PartOf id high →
        Relation.TransGen s.PartOf id high := by
      intro high above
      induction above with
      | single last =>
        refine .single (h.partOf last fun ⟨t, ht⟩ => ?_).1
        exact finite ((last.denotes ht).imp fun _ found => found.1)
      | tail above last ih =>
        refine .tail ih (h.partOf last fun ⟨t, ht⟩ => ?_).1
        exact finite ((denotes_of_transGen (.tail above last) ht).imp fun _ found => found.1)
    exact acyclic id (before id cycle)

end Echoes

theorem Echoes.exists_finite {s v : TyStore} (h : s.Echoes v) {id : TyId} {t : TyTree}
    (ht : v.Denotes id t) {height : Nat} (low : height ≤ t.height) :
    ∃ ids : List TyId, ids.Nodup ∧ ids.length = height ∧
      ∀ old ∈ ids, old.index < s.size ∧ ∃ t, v.Denotes old t ∧ t.height ≤ height := by
  induction height with
  | zero => exact ⟨[], .nil, rfl, List.forall_mem_nil _⟩
  | succ height ih =>
    obtain ⟨ids, nodup, length, each⟩ := ih (Nat.le_of_succ_le low)
    obtain ⟨id', t', ht', heq⟩ := exists_denotes_height ht (Nat.succ_pos height) low
    obtain ⟨old, t'', hold, ht'', same⟩ := h.exists_old ht'
    have higher : old ∉ ids := by
      intro hmem
      obtain ⟨-, u, hu, less⟩ := each old hmem
      rw [hu.unique ht''] at less
      omega
    refine ⟨old :: ids, List.nodup_cons.mpr ⟨higher, nodup⟩, by rw [List.length_cons, length], ?_⟩
    refine List.forall_mem_cons.mpr ⟨⟨hold, t'', ht'', by omega⟩, fun other hother => ?_⟩
    obtain ⟨inside, u, hu, less⟩ := each other hother
    exact ⟨inside, u, hu, Nat.le_succ_of_le less⟩

theorem Descends.le_height {s : TyStore} {fuel : Nat} {id : TyId}
    (h : s.Descends fuel id .endless) {t : TyTree} (ht : s.Denotes id t) : fuel ≤ t.height := by
  generalize hfault : Fault.endless = fault at h
  induction h generalizing t with
  | spent id => exact Nat.zero_le _
  | unknown fuel id missing => cases hfault
  | part below h ih =>
    obtain ⟨t', ht', less⟩ := below.denotes ht
    have := ih ht' hfault
    omega

/-- The types on a way down that goes on all differ: those that stand for no tree because none
contains itself, and below them as many as the first tree on the way is high. -/
theorem Echoes.exists_way {s v : TyStore} (h : s.Echoes v) {fuel : Nat} {id : TyId}
    (acyclic : ∀ low, Relation.ReflTransGen v.PartOf low id → ¬ Relation.TransGen v.PartOf low low)
    (way : v.Descends fuel id .endless) :
    ∃ ids : List TyId, ids.Nodup ∧ ids.length = fuel ∧ ∀ old ∈ ids, old.index < s.size ∧
      ((∃ t, v.Denotes old t) ∨ old = id ∨ Relation.TransGen v.PartOf old id) := by
  generalize hfault : Fault.endless = fault at way
  induction way with
  | spent id => exact ⟨[], .nil, rfl, List.forall_mem_nil _⟩
  | unknown fuel id missing => cases hfault
  | @part fuel id part fault below way ih =>
    subst hfault
    by_cases finite : ∃ t, v.Denotes id t
    · obtain ⟨t, ht⟩ := finite
      obtain ⟨ids, nodup, length, each⟩ :=
        h.exists_finite ht (Descends.le_height (.part below way) ht)
      refine ⟨ids, nodup, length, fun old hold => ?_⟩
      obtain ⟨inside, t, ht, -⟩ := each old hold
      exact ⟨inside, .inl ⟨t, ht⟩⟩
    · obtain ⟨ids, nodup, length, each⟩ := ih (fun low lower => acyclic low (lower.tail below)) rfl
      have apart : id ∉ ids := by
        intro hmem
        obtain ⟨-, found | rfl | lower⟩ := each id hmem
        · exact finite found
        · exact acyclic id .refl (.single below)
        · exact acyclic id .refl (lower.tail below)
      refine ⟨id :: ids, List.nodup_cons.mpr ⟨apart, nodup⟩, by rw [List.length_cons, length], ?_⟩
      refine List.forall_mem_cons.mpr
        ⟨⟨(h.partOf below finite).2, .inr (.inl rfl)⟩, fun old hold => ?_⟩
      obtain ⟨inside, found | rfl | lower⟩ := each old hold
      · exact ⟨inside, .inl found⟩
      · exact ⟨inside, .inr (.inr (.single below))⟩
      · exact ⟨inside, .inr (.inr (lower.tail below))⟩

/-- So the way down is no longer than the store was large at first. -/
theorem Echoes.le_size {s v : TyStore} (h : s.Echoes v) {fuel : Nat} {id : TyId}
    (acyclic : ∀ low, Relation.ReflTransGen v.PartOf low id → ¬ Relation.TransGen v.PartOf low low)
    (way : v.Descends fuel id .endless) : fuel ≤ s.size := by
  obtain ⟨ids, nodup, length, each⟩ := h.exists_way acyclic way
  have injective : Function.Injective TyId.index := fun a b same => by
    cases a
    cases b
    exact congrArg TyId.mk same
  have inside : ids.map TyId.index ⊆ List.range s.size := by
    intro i hi
    obtain ⟨id, hid, rfl⟩ := List.mem_map.mp hi
    exact List.mem_range.mpr (each id hid).1
  simpa [length] using ((nodup.map injective).subperm inside).length_le

/-- An id without a type in the later store, and the fault that names it: the one to begin with, or
a part of a type that the earlier store has. -/
def Missing (s v : TyStore) (id : TyId) (fault : Fault) : Prop :=
  ∃ missing : TyId, fault = .unknownType missing.index ∧ v.size ≤ missing.index ∧
    (missing = id ∨ ∃ whole, s.PartOf missing whole)

/-- With fuel for all the types from before, going down stops at most at an id without a type: the
one it began with, or a part of one of those types. -/
theorem Echoes.fault_of_descends {s v : TyStore} (h : s.Echoes v) (acyclic : s.Acyclic)
    {fuel : Nat} (enough : s.size < fuel) {id : TyId} {fault : Fault}
    (way : v.Descends fuel id fault) : s.Missing v id fault := by
  by_cases endless : fault = .endless
  · have := h.le_size (fun low _ => h.acyclic acyclic low) (endless ▸ way)
    omega
  · clear enough
    induction way with
    | spent id => exact absurd rfl endless
    | unknown fuel id missing => exact ⟨id, rfl, missing, .inl rfl⟩
    | @part fuel id part fault below way ih =>
      obtain ⟨missing, rfl, beyond, rfl | found⟩ := ih endless
      · refine ⟨missing, rfl, beyond, .inr ⟨id, (h.partOf below fun ⟨t, ht⟩ => ?_).1⟩⟩
        obtain ⟨t', ht', -⟩ := below.denotes ht
        have := ht'.lt_size
        omega
      · exact ⟨missing, rfl, beyond, .inr found⟩

section

variable {rename : Name → Option Name} {s v : TyStore}

theorem forall₂_mates {ids news : List TyId} (h : List.Forall₂ v.Mates ids news) :
    ∃ ts ts', List.Forall₂ v.Denotes ids ts ∧ List.Forall₂ v.Denotes news ts' ∧
      TyTree.heightOfAll ts' = TyTree.heightOfAll ts := by
  induction h with
  | nil => exact ⟨[], [], .nil, .nil, rfl⟩
  | cons head _ ih =>
    obtain ⟨t, t', ht, ht', same⟩ := head
    obtain ⟨ts, ts', hts, hts', same'⟩ := ih
    exact ⟨t :: ts, t' :: ts', .cons ht hts, .cons ht' hts', congrArg₂ max same same'⟩

theorem mates_withParts {w : TyStore} {id new : TyId} {ty : Ty} {ids : List TyId}
    (hty : w.get id = .ok ty) (hnew : w.get new = .ok (ty.withParts ids))
    (each : List.Forall₂ w.Mates ty.parts ids) : w.Mates id new := by
  obtain ⟨ts, ts', hts, hts', same⟩ := forall₂_mates each
  refine ⟨.node ty.former ts, .node ty.former ts', denotes_node_iff.mpr ⟨ty, hty, rfl, hts⟩,
    denotes_node_iff.mpr ⟨_, hnew, Ty.former_withParts ty ids, ?_⟩, congrArg (· + 1) same⟩
  rwa [Ty.parts_withParts each.length_eq.symm]

theorem mates_instanceOf {w : TyStore} {id id' : TyId} {name name' : Name}
    (h : w.get id = .ok (.instanceOf name)) (h' : w.get id' = .ok (.instanceOf name')) :
    w.Mates id id' :=
  ⟨_, _, denotes_instanceOf h, denotes_instanceOf h', rfl⟩

/-- Renaming the classes of a type leaves an id that stands for a tree of the same height, or comes
to a fault on the way down in the store as it is by then. -/
theorem substituteWithin_ends (h : s.Echoes v) (fuel : Nat) (id : TyId) :
    Ends (fun out => v.Extends out.2 ∧ s.Echoes out.2 ∧ out.2.Mates id out.1)
      (fun fault => ∃ w, s.Echoes w ∧ v.Extends w ∧ w.Descends fuel id fault)
      (substituteWithin rename fuel v id) := by
  induction fuel generalizing v id with
  | zero => exact ⟨v, h, .refl v, .spent id⟩
  | succ fuel ih =>
    refine ((v.get_ends id).imp (fun _ h => h) ?_).bind fun ty hty => ?_
    · rintro _ ⟨missing, rfl⟩
      exact ⟨v, h, .refl v, .unknown fuel id missing⟩
    split
    · next name =>
      split
      · next new _ =>
        split
        · exact ⟨.refl v, h, mates_instanceOf hty hty⟩
        · generalize hadded : v.intern (.instanceOf new) = added
          obtain ⟨renamed, w⟩ := added
          have grows := extends_of_intern hadded
          have mates := mates_instanceOf (grows _ _ hty) (get_of_intern hadded)
          exact ⟨grows, h.intern hadded (lt_size_of_get hty) mates, mates⟩
      · exact ⟨.refl v, h, mates_instanceOf hty hty⟩
    · have parts : Ends (fun out => v.Extends out.2 ∧ s.Echoes out.2 ∧
          List.Forall₂ out.2.Mates ty.parts out.1)
          (fun fault => ∃ w, s.Echoes w ∧ v.Extends w ∧ w.Descends (fuel + 1) id fault)
          (mapAccumM (substituteWithin rename fuel) v ty.parts) := by
        refine Ends.mapAccumM Extends.refl Extends.trans (fun hs h => h.extend hs)
          (fun u hu hI part hpart => (ih hI part).imp (fun _ h => h) ?_) h
        rintro fault ⟨w, echoes, grows, way⟩
        have below : w.PartOf part id := ⟨ty, (hu.trans grows) _ _ hty, hpart⟩
        exact ⟨w, echoes, hu.trans grows, .part below way⟩
      refine parts.bind fun ⟨ids, u⟩ ⟨grows, echoes, each⟩ => ?_
      have hty' := grows _ _ hty
      by_cases same : ids = ty.parts
      · simp only [if_pos same]
        refine ⟨grows, echoes, mates_withParts hty' ?_ each⟩
        rw [same, Ty.withParts_parts]
        exact hty'
      · simp only [if_neg same]
        generalize hadded : u.intern (ty.withParts ids) = added
        obtain ⟨new, w⟩ := added
        have grows' := extends_of_intern hadded
        have mates := mates_withParts (grows' _ _ hty') (get_of_intern hadded)
          (each.imp fun _ _ h => h.extend grows')
        exact ⟨grows.trans grows', echoes.intern hadded (lt_size_of_get hty') mates, mates⟩

end

/-- The fault that names a part of one of its types that is not there. -/
def Lacks (s : TyStore) (fault : Fault) : Prop :=
  ∃ missing : TyId, fault = .unknownType missing.index ∧ s.size ≤ missing.index ∧
    ∃ whole, s.PartOf missing whole

section

variable {s v : TyStore} (h : s.Echoes v) (acyclic : s.Acyclic) (id : TyId)

include h in
theorem Echoes.enough : s.size < v.depth := Nat.lt_succ_of_le h.older

include h acyclic

theorem Echoes.display_ends (lexicon : Lexicon) :
    Ends (fun _ => True) (fun fault => s.Missing v id fault ∨ v.Nameless lexicon id fault)
      (v.display lexicon id) :=
  (v.displayWithin_ends lexicon v.depth id).imp (fun _ h => h) fun _ ends =>
    ends.imp_left fun way => h.fault_of_descends acyclic h.enough way

theorem Echoes.classes_ends : Ends (fun _ => True) (s.Missing v id) (v.classes id) :=
  (v.classesWithin_ends v.depth id).imp (fun _ h => h)
    fun _ way => h.fault_of_descends acyclic h.enough way

variable {id}

theorem Echoes.substitute_ends (inside : id.index < s.size) (rename : Name → Option Name) :
    Ends (fun out => v.Extends out.2 ∧ s.Echoes out.2 ∧ out.2.Mates id out.1)
      s.Lacks (v.substitute rename id) := by
  refine (substituteWithin_ends h v.depth id).imp (fun _ h => h) ?_
  rintro fault ⟨w, echoes, -, way⟩
  obtain ⟨missing, rfl, beyond, rfl | found⟩ := echoes.fault_of_descends acyclic h.enough way
  · have := echoes.older
    omega
  · exact ⟨missing, rfl, echoes.older.trans beyond, found⟩

end

end TyStore

namespace TyRemap

/-- Every id that `remap` changes it changes to one that stands for a tree in the store `types`. -/
def Lands (types : TyStore) (remap : TyRemap) : Prop :=
  ∀ id, remap.apply id = id ∨ ∃ t, types.Denotes (remap.apply id) t

theorem lands_empty (types : TyStore) : Lands types .empty := fun _ => .inl rfl

theorem lands_of_denotes {types : TyStore} {remap : TyRemap}
    (each : ∀ pair ∈ remap.pairs, ∃ t, types.Denotes pair.2 t) : Lands types remap := by
  intro id
  unfold apply
  cases found : remap.pairs.lookup id with
  | none => exact .inl rfl
  | some new =>
    obtain ⟨before, after, split, -⟩ := List.lookup_eq_some_iff.mp found
    have listed : (id, new) ∈ remap.pairs :=
      split ▸ List.mem_append_right _ List.mem_cons_self
    exact .inr (each (id, new) listed)

variable {s v : TyStore}

theorem build_ends (h : s.Echoes v) (acyclic : s.Acyclic) (rename : Name → Option Name) :
    Ends (fun out => v.Extends out.2 ∧ s.Echoes out.2 ∧ Lands out.2 out.1)
      s.Lacks (build rename s.ids v) := by
  unfold build
  refine Ends.bind (show Ends (fun out => v.Extends out.2 ∧ s.Echoes out.2 ∧
    List.Forall₂ (fun _ (pair : TyId × TyId) => ∃ t, out.2.Denotes pair.2 t) s.ids out.1)
    s.Lacks _ from ?_) ?_
  · refine Ends.mapAccumM (R := fun u _ (pair : TyId × TyId) => ∃ t, u.Denotes pair.2 t)
      TyStore.Extends.refl TyStore.Extends.trans (fun hs h => h.imp fun _ ht => ht.extend hs) ?_ h
    intro u _ echoes id hid
    obtain ⟨i, hi, rfl⟩ := List.mem_map.mp hid
    refine (echoes.substitute_ends acyclic (List.mem_range.mp hi) rename).bind ?_
    rintro out ⟨grows, echoes, t, t', -, ht', -⟩
    exact ⟨grows, echoes, t', ht'⟩
  · rintro ⟨changed, u⟩ ⟨grows, echoes, each⟩
    refine ⟨grows, echoes, lands_of_denotes fun pair hpair => ?_⟩
    obtain ⟨_, -, denotes⟩ := forall₂_exists_left each (List.mem_of_mem_filter hpair)
    exact denotes

theorem buildAll_ends (acyclic : s.Acyclic) (count : Nat) (renames : Renaming) :
    Ends (fun out => s.Echoes out.2 ∧ ∀ remap ∈ out.1, Lands out.2 remap)
      s.Lacks (buildAll s count renames) := by
  have each : Ends (fun out => s.Extends out.2 ∧ s.Echoes out.2 ∧
      List.Forall₂ (fun _ remap => Lands out.2 remap) (List.range count) out.1)
      s.Lacks (buildAll s count renames) := by
    refine Ends.mapAccumM (R := fun u _ remap => Lands u remap) TyStore.Extends.refl
      TyStore.Extends.trans (fun hs h id => (h id).imp_right fun found => found.imp fun _ ht =>
        ht.extend hs) ?_ (TyStore.Echoes.refl s)
    intro u _ echoes unit _
    split
    · exact build_ends echoes acyclic (renames.get? unit)
    · exact ⟨.refl u, echoes, lands_empty u⟩
  refine each.imp (fun out ⟨_, echoes, lands⟩ => ⟨echoes, fun remap hremap => ?_⟩) fun _ h => h
  obtain ⟨_, -, lands⟩ := forall₂_exists_left lands hremap
  exact lands

end TyRemap

end Linkage
