import Linkage.Link.Substitution
import Linkage.Proofs.TyGrowth
/-!
Renaming the classes of a type. In the store it is done by ids, of which new ones come up on the
way; on the written-out types it is one simultaneous substitution. The store only grows, so types
that were there before stand for what they did.
-/
namespace Linkage

/-- The name that is used from now on, if some names are given new ones. -/
def Name.under (rename : Name → Option Name) (name : Name) : Name := (rename name).getD name

namespace TyStore

variable {rename : Name → Option Name}

theorem forall₂_denotes_extend {s s' : TyStore} (hs : s.Extends s') {ids : List TyId}
    {ts : List TyTree} (h : List.Forall₂ s.Denotes ids ts) : List.Forall₂ s'.Denotes ids ts :=
  h.imp fun _ _ hd => hd.extend hs

theorem forall₂_denotes_rename {s u : TyStore} {f : Name → Name} {ids news : List TyId}
    {ts : List TyTree}
    (each : List.Forall₂ (fun id new => ∀ t, s.Denotes id t → u.Denotes new (t.rename f)) ids news)
    (h : List.Forall₂ s.Denotes ids ts) :
    List.Forall₂ u.Denotes news (ts.map (TyTree.rename f)) := by
  induction each generalizing ts with
  | nil => cases h; exact .nil
  | cons head _ ih =>
    cases h with
    | cons hhead hrest => exact .cons (head _ hhead) (ih hrest)

theorem denotes_instanceOf {s : TyStore} {id : TyId} {name : Name}
    (h : s.get id = .ok (.instanceOf name)) : s.Denotes id (.node (.instanceOf name) []) :=
  denotes_node_iff.mpr ⟨_, h, rfl, .nil⟩

theorem former_rename_of_not_instanceOf {ty : Ty} (h : ∀ name, ty = .instanceOf name → False)
    (f : Name → Name) : ty.former.rename f = ty.former := by
  cases ty with
  | instanceOf name => exact (h name rfl).elim
  | _ => rfl

theorem substituteWithin_grows {fuel : Nat} {s s' : TyStore} {id new : TyId}
    (h : substituteWithin rename fuel s id = .ok (new, s')) : s.Grows s' := by
  induction fuel generalizing s s' id new with
  | zero => cases h
  | succ fuel ih =>
    simp only [substituteWithin, bind_eq_ok] at h
    obtain ⟨ty, hty, h⟩ := h
    split at h
    · split at h
      · split at h
        · cases h; exact Grows.refl s
        · exact grows_of_intern (Except.ok.inj h)
      · cases h; exact Grows.refl s
    · obtain ⟨⟨ids, u⟩, hids, h⟩ := bind_eq_ok.mp h
      have grows : s.Grows u :=
        (mapAccumM_grows (R := fun _ _ _ => True) Grows.refl Grows.trans
          (fun _ _ => trivial) (fun _ _ hstep => ⟨ih hstep, trivial⟩) hids).1
      split at h
      · cases h; exact grows
      · exact grows.trans (grows_of_intern (Except.ok.inj h))

theorem class_kept_or_interned {s s' : TyStore} {id new : TyId} {name : Name}
    (h : (match rename name with
      | some found => if found = name then .ok (id, s) else .ok (s.intern (.instanceOf found))
      | none => .ok (id, s) : Checked (TyId × TyStore)) = .ok (new, s')) :
    name.under rename = name ∧ new = id ∧ s' = s ∨
      s.intern (.instanceOf (name.under rename)) = (new, s') := by
  unfold Name.under
  split at h
  · next found hfound =>
    rw [hfound, Option.getD_some]
    split at h
    · next same =>
      cases h
      exact .inl ⟨same, rfl, rfl⟩
    · exact .inr (Except.ok.inj h)
  · next hnone =>
    cases h
    rw [hnone, Option.getD_none]
    exact .inl ⟨rfl, rfl, rfl⟩

theorem denotes_renamed_class {s s' : TyStore} {id new : TyId} {name : Name}
    (hty : s.get id = .ok (.instanceOf name))
    (h : (match rename name with
      | some found => if found = name then .ok (id, s) else .ok (s.intern (.instanceOf found))
      | none => .ok (id, s) : Checked (TyId × TyStore)) = .ok (new, s')) :
    s'.Denotes new (.node (.instanceOf (name.under rename)) []) := by
  rcases class_kept_or_interned h with ⟨same, rfl, rfl⟩ | interned
  · rw [same]
    exact denotes_instanceOf hty
  · exact denotes_instanceOf (get_of_intern interned)

theorem denotes_withParts {u s' : TyStore} {id new : TyId} {ty : Ty} {ids : List TyId}
    {ts : List TyTree} (hty : u.get id = .ok ty) (length : ids.length = ty.parts.length)
    (h : (if ids = ty.parts then .ok (id, u) else .ok (u.intern (ty.withParts ids)) :
      Checked (TyId × TyStore)) = .ok (new, s')) (hids : List.Forall₂ u.Denotes ids ts) :
    s'.Denotes new (.node ty.former ts) := by
  split at h
  · next same =>
    cases h
    exact denotes_node_iff.mpr ⟨ty, hty, rfl, same ▸ hids⟩
  · have interned : u.intern (ty.withParts ids) = (new, s') := Except.ok.inj h
    refine denotes_node_iff.mpr
      ⟨ty.withParts ids, get_of_intern interned, Ty.former_withParts ty ids, ?_⟩
    rw [Ty.parts_withParts length]
    exact forall₂_denotes_extend (extends_of_intern interned) hids

theorem substituteWithin_denotes {fuel : Nat} {s s' : TyStore} {id new : TyId} {t : TyTree}
    (h : substituteWithin rename fuel s id = .ok (new, s')) (hid : s.Denotes id t) :
    s'.Denotes new (t.rename (Name.under rename)) := by
  induction fuel generalizing s s' id new t with
  | zero => cases h
  | succ fuel ih =>
    obtain ⟨former, parts⟩ := t
    obtain ⟨ty, hty, rfl, hparts⟩ := denotes_node_iff.mp hid
    simp only [substituteWithin, bind_eq_ok] at h
    obtain ⟨ty', hty', h⟩ := h
    obtain rfl : ty = ty' := Except.ok.inj (hty.symm.trans hty')
    rw [TyTree.rename_node]
    split at h
    · next name =>
      -- a class has no parts: only its name is looked up
      cases hparts
      exact denotes_renamed_class hty h
    · next hother =>
      obtain ⟨⟨ids, u⟩, hids, h⟩ := bind_eq_ok.mp h
      -- every part is substituted in the store that the parts before it left
      have each : s.Grows u ∧ List.Forall₂ (fun part new => ∀ t, s.Denotes part t →
          u.Denotes new (t.rename (Name.under rename))) ty.parts ids := by
        refine mapAccumM_grows (R := fun u part new => ∀ t, s.Denotes part t →
          u.Denotes new (t.rename (Name.under rename))) Grows.refl Grows.trans ?_ ?_ hids
        · exact fun hle hR t ht => (hR t ht).extend hle.types
        · intro v w part new hle _ hstep
          exact ⟨substituteWithin_grows hstep, fun t ht => ih hstep (ht.extend hle.types)⟩
      have images := forall₂_denotes_rename each.2 hparts
      rw [former_rename_of_not_instanceOf hother]
      exact denotes_withParts (each.1.types id ty hty) (length_mapAccumM hids) h images

/-- A type that mentions no class under a new name is left alone. -/
theorem substituteWithin_eq_self {fuel : Nat} {s : TyStore} {id : TyId} {t : TyTree}
    (h : s.treeWithin fuel id = .ok t) (fixed : ∀ name ∈ t.classes, name.under rename = name) :
    substituteWithin rename fuel s id = .ok (id, s) := by
  induction fuel generalizing id t with
  | zero => cases h
  | succ fuel ih =>
    obtain ⟨ty, parts, hty, hparts, rfl⟩ := treeWithin_succ_eq_ok.mp h
    rw [TyTree.classes_node] at fixed
    simp only [substituteWithin, hty, ok_bind]
    split
    · next name =>
      have same := fixed name (List.mem_append_left _ List.mem_cons_self)
      unfold Name.under at same
      split
      · next found hfound => rw [if_pos (by simpa [hfound] using same)]; rfl
      · rfl
    · have unchanged : mapAccumM (substituteWithin rename fuel) s ty.parts = .ok (ty.parts, s) := by
        replace fixed : ∀ tree ∈ parts, ∀ name ∈ tree.classes, name.under rename = name :=
          fun tree htree name hname =>
            fixed name (List.mem_append_right _ (List.mem_flatMap.mpr ⟨tree, htree, hname⟩))
        clear hty h
        generalize ty.parts = ids at hparts ⊢
        induction hparts with
        | nil => rfl
        | cons hpart _ ih' =>
          exact mapAccumM_cons_eq_ok.mpr ⟨_, s, _, ih hpart (fixed _ List.mem_cons_self),
            ih' fun tree htree => fixed tree (List.mem_cons_of_mem _ htree), rfl⟩
      rw [unchanged, ok_bind, if_pos rfl]
      rfl

theorem exists_substituteWithin {fuel : Nat} {s : TyStore} {id : TyId} {t : TyTree}
    (h : s.Denotes id t) (enough : t.height ≤ fuel) :
    ∃ new s', substituteWithin rename fuel s id = .ok (new, s') := by
  induction fuel generalizing s id t with
  | zero => cases t; simp [TyTree.height] at enough
  | succ fuel ih =>
    obtain ⟨former, parts⟩ := t
    obtain ⟨ty, hty, rfl, hparts⟩ := denotes_node_iff.mp h
    have low : TyTree.heightOfAll parts ≤ fuel := Nat.le_of_succ_le_succ enough
    simp only [substituteWithin, hty, ok_bind]
    split
    · split
      · split
        · exact ⟨_, _, rfl⟩
        · exact ⟨_, _, rfl⟩
      · exact ⟨_, _, rfl⟩
    · obtain ⟨ids, u, hids⟩ := exists_mapAccumM (f := substituteWithin rename fuel) (s := s)
        (P := fun u part => ∃ t, u.Denotes part t ∧ t.height ≤ fuel) ty.parts
        (fun u part _ ⟨t, ht, hle⟩ => by
          obtain ⟨new, v, hstep⟩ := ih ht hle
          exact ⟨new, v, hstep, fun part' ⟨t', ht', hle'⟩ =>
            ⟨t', ht'.extend (substituteWithin_grows hstep).types, hle'⟩⟩)
        (fun part hpart => by
          obtain ⟨t, ht, hdenotes⟩ := forall₂_exists_right hparts hpart
          exact ⟨t, hdenotes, Nat.le_trans (TyTree.height_le_heightOfAll ht) low⟩)
      rw [hids, ok_bind]
      split
      · exact ⟨_, _, rfl⟩
      · exact ⟨_, _, rfl⟩

theorem exists_substitute (rename : Name → Option Name) {s : TyStore} {id : TyId} {t : TyTree}
    (h : s.Denotes id t) :
    ∃ new s', s.substitute rename id = .ok (new, s') :=
  exists_substituteWithin h (Nat.le_succ_of_le h.height_le_size)

theorem lookup_of_substitute {s s' : TyStore} {id new : TyId} {name : Name}
    (hid : s.lookup (.instanceOf name) = some id) (h : s.substitute rename id = .ok (new, s')) :
    s'.lookup (.instanceOf (name.under rename)) = some new := by
  simp only [substitute, depth, substituteWithin, get_of_lookup hid, ok_bind] at h
  rcases class_kept_or_interned h with ⟨same, rfl, rfl⟩ | interned
  · rw [same, hid]
  · exact lookup_of_intern interned

/-- What became of an id between two stores: it was substituted in some store on the way, or there
was nothing to substitute. -/
inductive Substituted (rename : Name → Option Name) (s s' : TyStore) (id : TyId) : TyId → Prop
  | onTheWay {u u' : TyStore} {new : TyId} (before : s.Grows u)
      (step : u.substitute rename id = .ok (new, u')) (after : u'.Grows s') :
      Substituted rename s s' id new
  | unchanged (nothing : ∀ name, rename name = none) (grows : s.Grows s') :
      Substituted rename s s' id id

namespace Substituted

variable {s s' s'' : TyStore} {id new : TyId} {t : TyTree}

theorem later (h : Substituted rename s s' id new) (grows : s'.Grows s'') :
    Substituted rename s s'' id new := by
  cases h with
  | onTheWay before step after => exact .onTheWay before step (after.trans grows)
  | unchanged nothing before => exact .unchanged nothing (before.trans grows)

theorem earlier (h : Substituted rename s' s'' id new) (grows : s.Grows s') :
    Substituted rename s s'' id new := by
  cases h with
  | onTheWay before step after => exact .onTheWay (grows.trans before) step after
  | unchanged nothing after => exact .unchanged nothing (grows.trans after)

/-- Substitution acts on written-out types: what the new id stands for is what the old one stood
for, with every class renamed once. -/
theorem denotes (h : Substituted rename s s' id new) (ht : s.Denotes id t) :
    s'.Denotes new (t.rename (Name.under rename)) := by
  cases h with
  | onTheWay before step after =>
    exact (substituteWithin_denotes step (ht.extend before.types)).extend after.types
  | unchanged nothing grows =>
    rw [TyTree.rename_eq_self fun name _ => by simp [Name.under, nothing]]
    exact ht.extend grows.types

theorem eq_self (h : Substituted rename s s' id new) (ht : s.Denotes id t)
    (fixed : ∀ name ∈ t.classes, name.under rename = name) : new = id := by
  cases h with
  | onTheWay before step after =>
    have found := denotes_iff_tree.mp (ht.extend before.types)
    have same := step.symm.trans (substituteWithin_eq_self found fixed)
    exact congrArg Prod.fst (Except.ok.inj same)
  | unchanged nothing grows => rfl

theorem lookup (h : Substituted rename s s' id new) {name : Name}
    (hid : s.lookup (.instanceOf name) = some id) :
    s'.lookup (.instanceOf (name.under rename)) = some new := by
  cases h with
  | onTheWay before step after =>
    exact after.ids _ _ (lookup_of_substitute (before.ids _ _ hid) step)
  | unchanged nothing grows =>
    rw [Name.under, nothing, Option.getD_none]
    exact grows.ids _ _ hid

end Substituted

theorem mem_ids {s : TyStore} {id : TyId} (h : id.index < s.size) : id ∈ s.ids :=
  List.mem_map.mpr ⟨id.index, List.mem_range.mpr h, rfl⟩

theorem denoted_ids {s : TyStore} (closed : s.Closed) (acyclic : s.Acyclic) :
    ∀ id ∈ s.ids, ∃ t, s.Denotes id t := by
  intro id hid
  obtain ⟨i, hi, rfl⟩ := List.mem_map.mp hid
  exact exists_denotes closed acyclic (List.mem_range.mp hi)

end TyStore

theorem Renaming.get?_eq_none_of_not_touches {r : Renaming} {unit : Nat}
    (h : ¬ r.touches unit = true) (name : Name) : r.get? unit name = none := by
  refine List.lookup_eq_none_iff.mpr fun entry hentry => ?_
  simp only [touches, List.any_eq_true, not_exists, not_and, beq_iff_eq] at h
  refine bne_iff_ne.mpr fun heq => h entry hentry ?_
  exact (congrArg SymbolKey.unit heq).symm

namespace TyRemap

theorem apply_filter_ne {pairs : List (TyId × TyId)} {id : TyId} (h : ∃ new, (id, new) ∈ pairs) :
    (id, apply ⟨pairs.filter fun (old, new) => new ≠ old⟩ id) ∈ pairs := by
  unfold apply
  cases found : (pairs.filter fun (old, new) => new ≠ old).lookup id with
  | some new =>
    obtain ⟨before, after, heq, _⟩ := List.lookup_eq_some_iff.mp found
    have mem : (id, new) ∈ pairs.filter fun (old, new) => new ≠ old :=
      heq ▸ List.mem_append_right before List.mem_cons_self
    exact (List.mem_filter.mp mem).1
  | none =>
    obtain ⟨new, hnew⟩ := h
    have same : new = id := by
      by_contra hne
      have mem : (id, new) ∈ pairs.filter fun (old, new) => new ≠ old :=
        List.mem_filter.mpr ⟨hnew, by simpa using hne⟩
      simpa using List.lookup_eq_none_iff.mp found _ mem
    exact same ▸ hnew

theorem build_substituted {rename : Name → Option Name} {ids : List TyId} {s s' : TyStore}
    {remap : TyRemap} (h : build rename ids s = .ok (remap, s')) :
    s.Grows s' ∧ ∀ id ∈ ids, TyStore.Substituted rename s s' id (remap.apply id) := by
  simp only [build, bind_eq_ok] at h
  obtain ⟨⟨pairs, u⟩, hpairs, h⟩ := h
  cases h
  have each : s.Grows u ∧ List.Forall₂ (fun id pair => pair.1 = id ∧
      TyStore.Substituted rename s u id pair.2) ids pairs := by
    refine mapAccumM_grows (R := fun u id pair => pair.1 = id ∧
      TyStore.Substituted rename s u id pair.2)
      TyStore.Grows.refl TyStore.Grows.trans ?_ ?_ hpairs
    · exact fun hle hR => ⟨hR.1, hR.2.later hle⟩
    · intro u v id pair hle _ hstep
      obtain ⟨⟨new, w⟩, hnew, hpair⟩ := bind_eq_ok.mp hstep
      cases hpair
      exact ⟨TyStore.substituteWithin_grows hnew, rfl, .onTheWay hle hnew (.refl _)⟩
  refine ⟨each.1, fun id hid => ?_⟩
  have known : ∃ new, (id, new) ∈ pairs := by
    obtain ⟨pair, hpair, rfl, _⟩ := forall₂_exists_right each.2 hid
    exact ⟨pair.2, hpair⟩
  obtain ⟨id', _, rfl, substituted⟩ := forall₂_exists_left each.2 (apply_filter_ne known)
  exact substituted

/-- Every id becomes in each unit what the renaming of that unit makes of it, whatever types the
other units need. -/
theorem buildAll_substituted {types types' : TyStore} {count : Nat} {renames : Renaming}
    {remaps : List TyRemap} (h : buildAll types count renames = .ok (remaps, types')) :
    types.Grows types' ∧ List.Forall₂ (fun unit (remap : TyRemap) => ∀ id ∈ types.ids,
      TyStore.Substituted (renames.get? unit) types types' id (remap.apply id))
      (List.range count) remaps := by
  refine mapAccumM_grows (R := fun now unit (remap : TyRemap) => ∀ id ∈ types.ids,
    TyStore.Substituted (renames.get? unit) types now id (remap.apply id))
    TyStore.Grows.refl TyStore.Grows.trans ?_ ?_ h
  · exact fun hle hR id hid => (hR id hid).later hle
  · intro now v unit remap hle _ hstep
    split at hstep
    · obtain ⟨grows, each⟩ := build_substituted hstep
      exact ⟨grows, fun id hid => (each id hid).earlier hle⟩
    · next untouched =>
      cases hstep
      exact ⟨.refl now, fun id _ =>
        .unchanged (Renaming.get?_eq_none_of_not_touches untouched) hle⟩

theorem exists_build (rename : Name → Option Name) {ids : List TyId} {s : TyStore}
    (denoted : ∀ id ∈ ids, ∃ t, s.Denotes id t) :
    ∃ remap s', build rename ids s = .ok (remap, s') := by
  obtain ⟨pairs, u, hpairs⟩ := exists_mapAccumM (s := s)
    (f := fun types id => types.substitute rename id >>= fun out => .ok ((id, out.1), out.2))
    (P := fun u id => ∃ t, u.Denotes id t) ids
    (fun u id _ finite => by
      obtain ⟨t, ht⟩ := finite
      obtain ⟨new, v, hstep⟩ := TyStore.exists_substitute rename ht
      refine ⟨(id, new), v, by rw [hstep]; rfl, fun id' finite' => ?_⟩
      exact finite'.imp fun t' ht' => ht'.extend (TyStore.substituteWithin_grows hstep).types)
    denoted
  exact ⟨_, u, bind_eq_ok.mpr ⟨_, hpairs, rfl⟩⟩

theorem exists_buildAll (types : TyStore) (denoted : ∀ id ∈ types.ids, ∃ t, types.Denotes id t)
    (count : Nat) (renames : Renaming) :
    ∃ remaps types', buildAll types count renames = .ok (remaps, types') := by
  refine exists_mapAccumM (P := fun now _ => ∀ id ∈ types.ids, ∃ t, now.Denotes id t) _
    (fun now unit _ ready => ?_) fun _ _ => denoted
  split
  · obtain ⟨remap, v, hbuild⟩ := exists_build (renames.get? unit) ready
    refine ⟨remap, v, hbuild, fun _ _ id hid => ?_⟩
    obtain ⟨t, ht⟩ := ready id hid
    exact ⟨t, ht.extend (build_substituted hbuild).1.types⟩
  · exact ⟨.empty, now, rfl, fun _ h => h⟩

end TyRemap

/-- What is so of a store stays so while its types are renamed: when a class under its new name is
interned, and when a type is with other parts. -/
structure TyStore.Keeps (holds : TyStore → Prop) (rename : Name → Option Name) : Prop where
  renamed : ∀ {s name new}, rename name = some new → holds s → holds (s.intern (.instanceOf new)).2
  rebuilt : ∀ {s u id ty}, s.get id = .ok ty → holds s → holds u →
    ∀ ids, holds (u.intern (ty.withParts ids)).2

namespace TyStore.Keeps

variable {holds : TyStore → Prop} {rename : Name → Option Name} {s s' : TyStore}

theorem mapAccumM {α β : Type} {f : TyStore → α → Checked (β × TyStore)} {xs : List α}
    {ys : List β} (step : ∀ {u v a b}, f u a = .ok (b, v) → holds u → holds v)
    (h : Linkage.mapAccumM f s xs = .ok (ys, s')) : holds s → holds s' :=
  (mapAccumM_grows (L := fun s s' => holds s → holds s') (R := fun _ _ _ => True) (fun _ => id)
    (fun first next start => next (first start)) (fun _ _ => trivial)
    (fun _ _ hstep => ⟨step hstep, trivial⟩) h).1

theorem substituteWithin (keeps : Keeps holds rename) {fuel : Nat} {id new : TyId}
    (h : TyStore.substituteWithin rename fuel s id = .ok (new, s')) (start : holds s) :
    holds s' := by
  induction fuel generalizing s s' id new with
  | zero => cases h
  | succ fuel ih =>
    simp only [TyStore.substituteWithin, bind_eq_ok] at h
    obtain ⟨ty, hty, h⟩ := h
    split at h
    · split at h
      · next hnew =>
        split at h
        · cases h
          exact start
        · have interned := Except.ok.inj h
          rw [show s' = _ from (congrArg Prod.snd interned).symm]
          exact keeps.renamed hnew start
      · cases h
        exact start
    · obtain ⟨⟨ids, u⟩, hids, h⟩ := bind_eq_ok.mp h
      have parts : holds u := mapAccumM ih hids start
      split at h
      · cases h
        exact parts
      · have interned := Except.ok.inj h
        rw [show s' = _ from (congrArg Prod.snd interned).symm]
        exact keeps.rebuilt hty start parts ids

theorem build (keeps : Keeps holds rename) {ids : List TyId} {remap : TyRemap}
    (h : TyRemap.build rename ids s = .ok (remap, s')) (start : holds s) : holds s' := by
  obtain ⟨⟨pairs, u⟩, hpairs, h⟩ := bind_eq_ok.mp h
  cases h
  refine mapAccumM (fun {u v id pair} hstep before => ?_) hpairs start
  obtain ⟨⟨new, w⟩, hnew, hpair⟩ := bind_eq_ok.mp hstep
  cases hpair
  exact keeps.substituteWithin hnew before

theorem buildAll {renames : Renaming} (keeps : ∀ unit, Keeps holds (renames.get? unit))
    {count : Nat} {remaps : List TyRemap}
    (h : TyRemap.buildAll s count renames = .ok (remaps, s')) (start : holds s) : holds s' := by
  refine mapAccumM (fun {u v unit remap} hstep before => ?_) h start
  split at hstep
  · exact (keeps unit).build hstep before
  · cases hstep
    exact before

end TyStore.Keeps

end Linkage
