import Linkage.Proofs.Linkable
import Linkage.Proofs.Reaching
import Linkage.Proofs.Totality
/-!
Units that use names coherently. What this means is told by slots and by the trees of types, apart
from the check of a linked unit, which reports a name once and then passes over what else there is
to say of it. Still it finds nothing exactly in coherent units.
-/
namespace Linkage

namespace LinkUnit

def AtTop (u : LinkUnit) (op : Op) : Prop := ∃ id ∈ u.body, u.ops.get? id.index = some op

def Declares (u : LinkUnit) (name : Name) : Prop :=
  ∃ op, u.AtTop op ∧ op.kind.declared? = some name

def DefinesClass (u : LinkUnit) (head : ClassHead) : Prop :=
  ∃ op, u.AtTop op ∧ op.kind = .classDef head

def topNames (u : LinkUnit) : List Name :=
  u.body.filterMap fun id => (u.ops.get? id.index).bind (·.kind.declared?)

/-- The declarations at top level differ in their names, and every name that an operation uses is
one of theirs: an object is of a class that is defined there, takes its parameters and yields one
instance of it, and so are the classes in all the types and the names in all the attributes. -/
structure Coherent (u : LinkUnit) (types : TyStore) : Prop where
  distinct : u.topNames.Nodup
  objects : ∀ id op, u.Reaches id op → ∀ ofClass actuals, op.kind = .object ofClass actuals →
    ∃ head, u.DefinesClass head ∧ head.name = ofClass ∧ head.params.map (·.ty) = actuals ∧
      ∃ result, op.results = [result] ∧ types.lookup (.instanceOf ofClass) = some result
  classes : ∀ id op, u.Reaches id op → ∀ ty ∈ op.types, ∃ t, types.tree ty = .ok t ∧
    ∀ name ∈ t.classes, ∃ head, u.DefinesClass head ∧ head.name = name
  symbols : ∀ id op, u.Reaches id op → ∀ name ∈ op.refs, u.Declares name

variable {u : LinkUnit} {ps : List Placed}

theorem Unfolds.forall_nodes_iff (h : u.Unfolds ps) {P : Node → Prop} :
    (∀ t ∈ u.forest, ∀ n ∈ t.nodes, P n) ↔ ∀ id op, u.Reaches id op → P op.toNode := by
  simp only [forest_eq h, List.forall_mem_map, Placed.nodes_tree, h.reaches_iff, List.mem_flatMap]
  constructor
  · rintro all id op ⟨p, hp, he⟩
    exact all p hp (id, op) he
  · intro all p hp e he
    exact all e.1 e.2 ⟨p, hp, he⟩

theorem Unfolds.atTop_iff (h : u.Unfolds ps) {op : Op} : u.AtTop op ↔ op ∈ ps.map Placed.op := by
  constructor
  · rintro ⟨id, hid, hop⟩
    rw [← h.body] at hid
    obtain ⟨p, hp, rfl⟩ := List.mem_map.mp hid
    exact List.mem_map.mpr ⟨p, hp, Option.some.inj ((h.held hp).symm.trans hop)⟩
  · intro hop
    obtain ⟨p, hp, rfl⟩ := List.mem_map.mp hop
    exact ⟨p.id, h.body ▸ List.mem_map_of_mem hp, h.held hp⟩

theorem Unfolds.declares_iff (h : u.Unfolds ps) {name : Name} :
    u.Declares name ↔ name ∈ u.declaredNames := by
  simp only [Declares, h.atTop_iff, declaredNames, filterMap_forest h, List.mem_filterMap]

theorem Unfolds.definesClass_iff (h : u.Unfolds ps) {head : ClassHead} :
    u.DefinesClass head ↔ head ∈ u.definedClasses := by
  simp only [DefinesClass, h.atTop_iff, definedClasses, filterMap_forest h, List.mem_filterMap,
    OpKind.definedClass?_eq_some]

theorem Unfolds.topNames_eq (h : u.Unfolds ps) : u.topNames = u.declaredNames := by
  rw [topNames, declaredNames, filterMap_forest h, ← h.body, List.filterMap_map,
    List.filterMap_map]
  refine List.filterMap_congr fun p hp => ?_
  simp only [Function.comp_apply, h.held hp, Option.bind_some]

end LinkUnit

theorem TyStore.forall_mentioned_iff {types : TyStore} {ids : List TyId}
    (denoted : ∀ id ∈ ids, ∃ t, types.Denotes id t) {P : Name → Prop} :
    (∃ mentioned, ids.mapM types.classes = .ok mentioned ∧ ∀ name ∈ mentioned.flatten, P name) ↔
      ∀ id ∈ ids, ∃ t, types.tree id = .ok t ∧ ∀ name ∈ t.classes, P name := by
  constructor
  · rintro ⟨mentioned, hmentioned, all⟩ id hid
    obtain ⟨t, ht⟩ := denoted id hid
    obtain ⟨names, hnames, hclasses⟩ := forall₂_exists_right (mapM_eq_ok.mp hmentioned) hid
    obtain rfl : t.classes = names := Except.ok.inj (ht.classes_eq.symm.trans hclasses)
    exact ⟨t, denotes_iff_tree.mp ht, fun name hname =>
      all name (List.mem_flatten_of_mem hnames hname)⟩
  · intro each
    obtain ⟨ts, hts⟩ := exists_forall₂ each
    have found := mapM_classes_eq (hts.imp fun _ _ ht => denotes_iff_tree.mpr ht.1)
    refine ⟨_, found, fun name hname => ?_⟩
    rw [← List.flatMap_def] at hname
    obtain ⟨t, ht, hname⟩ := List.mem_flatMap.mp hname
    obtain ⟨id, -, -, all⟩ := forall₂_exists_left hts ht
    exact all name hname

namespace LinkUnit

theorem Unfolds.coherent_iff {u : LinkUnit} {ps : List Placed} (h : u.Unfolds ps) {types : TyStore}
    (denoted : ∀ id op, u.Reaches id op → ∀ ty ∈ op.types, ∃ t, types.Denotes ty t) :
    u.Coherent types ↔ u.declaredNames.Nodup ∧
      ∀ t ∈ u.forest, ∀ n ∈ t.nodes, n.Fits types u.definedClasses u.declaredNames := by
  rw [h.forall_nodes_iff]
  constructor
  · intro coherent
    refine ⟨h.topNames_eq ▸ coherent.distinct, fun id op reached => ⟨?_, ?_, ?_⟩⟩
    · intro ofClass actuals hkind
      obtain ⟨head, defined, fits⟩ := coherent.objects id op reached ofClass actuals hkind
      exact ⟨head, h.definesClass_iff.mp defined, fits⟩
    · refine (TyStore.forall_mentioned_iff (denoted id op reached)).mpr fun ty hty => ?_
      obtain ⟨t, ht, all⟩ := coherent.classes id op reached ty hty
      refine ⟨t, ht, fun name hname => ?_⟩
      obtain ⟨head, defined, same⟩ := all name hname
      exact ⟨head, h.definesClass_iff.mp defined, same⟩
    · exact fun name hname => h.declares_iff.mp (coherent.symbols id op reached name hname)
  · rintro ⟨distinct, fits⟩
    refine ⟨h.topNames_eq ▸ distinct, ?_, ?_, ?_⟩
    · intro id op reached ofClass actuals hkind
      obtain ⟨head, hhead, takes⟩ := (fits id op reached).object ofClass actuals hkind
      exact ⟨head, h.definesClass_iff.mpr hhead, takes⟩
    · intro id op reached ty hty
      obtain ⟨t, ht, all⟩ := (TyStore.forall_mentioned_iff (denoted id op reached)).mp
        (fits id op reached).instances ty hty
      refine ⟨t, ht, fun name hname => ?_⟩
      obtain ⟨head, hhead, same⟩ := all name hname
      exact ⟨head, h.definesClass_iff.mpr hhead, same⟩
    · exact fun id op reached name hname =>
        h.declares_iff.mpr ((fits id op reached).symbols name hname)

end LinkUnit

/-- The check of a forest over finite types and known names comes to an end, and it finds nothing
exactly if the unit is coherent. -/
theorem misuses_exact {u : LinkUnit} {types : TyStore} {lexicon : Lexicon} (forest : u.IsForest)
    (typed : ∀ id op, u.Reaches id op → ∀ ty ∈ op.types, ty.index < types.size)
    (closed : types.Closed) (acyclic : types.Acyclic)
    (worded : ∀ id op, u.Reaches id op → ∀ name ∈ op.words, name.index < lexicon.size)
    (classed : ∀ ty ∈ types.toList, ∀ name ∈ ty.former.classes, name.index < lexicon.size) :
    ∃ found, u.misuses types lexicon = .ok found ∧ (found = [] ↔ u.Coherent types) := by
  obtain ⟨ps, hps⟩ := LinkUnit.isForest_iff.mp forest
  have denoted : ∀ id op, u.Reaches id op → ∀ ty ∈ op.types, ∃ t, types.Denotes ty t :=
    fun id op reached ty hty => TyStore.exists_denotes closed acyclic (typed id op reached ty hty)
  have words : ∀ t ∈ u.forest, ∀ n ∈ t.nodes, ∀ name ∈ n.words, name.index < lexicon.size :=
    hps.forall_nodes_iff.mpr worded
  obtain ⟨found, hfound⟩ := LinkUnit.exists_misuses forest
    (hps.forall_nodes_iff.mpr fun id op reached ty hty => by
      obtain ⟨t, ht⟩ := denoted id op reached ty hty
      exact ⟨t, ht, ht.classes_known classed⟩) words
  have named : ∀ name ∈ u.declaredNames, name.index < lexicon.size := by
    intro name hname
    obtain ⟨t, ht, declared⟩ := LinkUnit.mem_declaredNames.mp hname
    refine words t ht t.root t.root_mem_nodes name ?_
    simp [Node.words, declared]
  have nothing : u.misuses types lexicon = .ok [] ↔ _ := LinkUnit.misuses_eq_nil_iff forest named
  refine ⟨found, hfound, ?_⟩
  rw [hps.coherent_iff denoted, ← nothing, hfound]
  exact ⟨congrArg Except.ok, Except.ok.inj⟩

/-- Before the link the first unit of the bus design lacks the definition of the bus that it has an
instance of; the second one uses nothing but its own. -/
theorem misuses_exact_bus :
    ∃ u v, busDesign.units = [u, v] ∧ (u.IsForest ∧ ¬ u.Coherent busDesign.types) ∧
      v.IsForest ∧ v.Coherent busDesign.types := by
  obtain ⟨forest, typed, closed, acyclic, -⟩ := busDesign_wellFormed
  have exact : ∀ u ∈ busDesign.units, ∃ found, u.misuses busDesign.types busNames = .ok found ∧
      (found = [] ↔ u.Coherent busDesign.types) := by
    intro u hu
    obtain ⟨ps, hps⟩ := LinkUnit.isForest_iff.mp (forest u hu)
    exact misuses_exact (forest u hu) (hps.forall_nodes_iff.mp (typed u hu)) closed acyclic
      (hps.forall_nodes_iff.mp (busDesign_legible.words u hu)) busDesign_legible.classes
  have counts : busDesign.units.map (fun u =>
      (u.misuses busDesign.types busNames).map List.length) = [.ok 1, .ok 0] := by decide +kernel
  obtain ⟨u, v, hunits⟩ : ∃ u v, busDesign.units = [u, v] := ⟨_, _, rfl⟩
  rw [hunits] at exact forest counts
  obtain ⟨missing, hmissing, whenMissing⟩ := exact u List.mem_cons_self
  obtain ⟨found, hfound, whenFound⟩ := exact v (List.mem_cons_of_mem _ List.mem_cons_self)
  simp only [List.map_cons, List.map_nil, hmissing, hfound, Except.map, List.cons.injEq,
    Except.ok.injEq, List.length_eq_zero_iff, and_true] at counts
  refine ⟨u, v, hunits, ⟨forest u List.mem_cons_self, fun coherent => ?_⟩,
    forest v (List.mem_cons_of_mem _ List.mem_cons_self), whenFound.mp counts.2⟩
  rw [whenMissing.mpr coherent] at counts
  exact absurd counts.1 (by decide)

end Linkage
