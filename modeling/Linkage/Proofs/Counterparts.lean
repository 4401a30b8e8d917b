import Linkage.Proofs.Linkable
import Linkage.Proofs.Reorderings
import Linkage.Proofs.Sharing
/-!
Links of one design under different options and with the units in different orders. The names they
give differ, but two declarations get one name in the one link exactly if they do in the other. So
every name of one result has its counterpart in the other, and with the names every type and every
operation; and what the check compares in one, it finds equal or different in the other just so.
-/
namespace Linkage

namespace Attr

variable {f g k : Name → Name}

mutual

theorem rename_rename (a : Attr) (same : ∀ name ∈ a.refs, g (f name) = k name) :
    (a.rename f).rename g = a.rename k := by
  cases a with
  | ref name => exact congrArg Attr.ref (same name List.mem_cons_self)
  | array items => exact congrArg Attr.array (renameItems_renameItems items same)
  | dict entries => exact congrArg Attr.dict (renameEntries_renameEntries entries same)
  | _ => rfl

theorem renameItems_renameItems (items : List Attr)
    (same : ∀ name ∈ refsOfItems items, g (f name) = k name) :
    renameItems g (renameItems f items) = renameItems k items := by
  cases items with
  | nil => rfl
  | cons item rest =>
    obtain ⟨head, others⟩ := List.forall_mem_append.mp same
    rw [renameItems, renameItems, renameItems, rename_rename item head,
      renameItems_renameItems rest others]

theorem renameEntries_renameEntries (entries : List (Name × Attr))
    (same : ∀ name ∈ refsOfEntries entries, g (f name) = k name) :
    renameEntries g (renameEntries f entries) = renameEntries k entries := by
  cases entries with
  | nil => rfl
  | cons entry rest =>
    obtain ⟨head, others⟩ := List.forall_mem_append.mp same
    rw [renameEntries, renameEntries, renameEntries, rename_rename entry.2 head,
      renameEntries_renameEntries rest others]

end

end Attr

namespace TyTree

theorem rename_rename {f g k : Name → Name} {t : TyTree}
    (same : ∀ name ∈ t.classes, g (f name) = k name) : (t.rename f).rename g = t.rename k := by
  induction t with
  | node former parts ih =>
    rw [classes_node] at same
    obtain ⟨head, others⟩ := List.forall_mem_append.mp same
    have formers : (former.rename f).rename g = former.rename k := by
      cases former with
      | instanceOf name => exact congrArg Former.instanceOf (head name List.mem_cons_self)
      | _ => rfl
    rw [rename_node, rename_node, rename_node, formers, List.map_map]
    refine congrArg _ (List.map_congr_left fun t ht => ih t ht fun name hname => ?_)
    exact others name (List.mem_flatMap.mpr ⟨t, ht, hname⟩)

end TyTree

namespace OpKind

variable {s s' s'' : Name → Name} {f f' f'' : TyId → TyId}

theorem substitute_substitute {kind : OpKind}
    (names : ∀ name ∈ kind.declared?.toList ++ kind.class?.toList, s' (s name) = s'' name)
    (types : ∀ id ∈ kind.types, f' (f id) = f'' id) :
    (kind.substitute s f).substitute s' f' = kind.substitute s'' f'' := by
  cases kind <;>
    simp only [OpKind.types, ClassHead.types, ModuleHead.types, List.forall_mem_append,
      List.forall_mem_map] at types <;>
    simp_all [substitute, ClassHead.substitute, ModuleHead.substitute, declared?, class?]

end OpKind

namespace Node

/-- Every name in an operation, classes in types apart: what it declares and what it refers to. -/
def names (n : Node) : List Name :=
  (n.kind.declared?.toList ++ n.kind.class?.toList) ++ n.refs

theorem substitute_substitute {s s' s'' : Name → Name} {f f' f'' : TyId → TyId} {n : Node}
    (names : ∀ name ∈ n.names, s' (s name) = s'' name)
    (types : ∀ id ∈ n.types, f' (f id) = f'' id) :
    (n.substitute s f).substitute s' f' = n.substitute s'' f'' := by
  obtain ⟨kind, span, attrs, results⟩ := n
  obtain ⟨declared, referred⟩ := List.forall_mem_append.mp names
  obtain ⟨produced, listed⟩ := List.forall_mem_append.mp types
  have kinds : (kind.substitute s f).substitute s' f' = kind.substitute s'' f'' :=
    OpKind.substitute_substitute declared listed
  have values : ∀ entry ∈ attrs,
      (entry.2.substitute s).substitute s' = entry.2.substitute s'' := by
    intro entry hmem
    simp only [← Attr.rename_eq]
    exact Attr.rename_rename entry.2 fun name hname =>
      referred name (List.mem_flatMap.mpr ⟨entry, hmem, hname⟩)
  have ids : (results.map f).map f' = results.map f'' := by
    rw [List.map_map]
    exact List.map_congr_left produced
  simp only [substitute, kinds, ids, List.map_map, mk.injEq, true_and, and_true]
  exact List.map_congr_left fun entry hmem => congrArg (Prod.mk entry.1) (values entry hmem)

end Node

theorem Tree.mapNodes_mapNodes {f g k : Node → Node} {t : Tree}
    (same : ∀ n ∈ t.nodes, g (f n) = k n) : (t.mapNodes f).mapNodes g = t.mapNodes k := by
  induction t with
  | node root regions ih =>
    rw [nodes_node] at same
    obtain ⟨head, others⟩ := List.forall_mem_cons.mp same
    rw [mapNodes_node, mapNodes_node, mapNodes_node, head, List.map_map]
    refine congrArg _ (List.map_congr_left fun region hregion => ?_)
    rw [Function.comp_apply, List.map_map]
    refine List.map_congr_left fun t ht => ih region hregion t ht fun n hn => ?_
    exact others n (List.mem_flatMap.mpr ⟨t, List.mem_flatten.mpr ⟨region, hregion, ht⟩, hn⟩)

/-- What a design has to satisfy for the order of its units not to matter. -/
structure Design.Orderly (d : Design) : Prop where
  unique : d.UniqueNames
  /-- No type is stored twice. -/
  distinct : d.types.Nodup
  /-- No class and no module is declared inside another operation. -/
  flat : ∀ u ∈ d.units, ∀ t ∈ u.forest, ∀ n ∈ t.nodes.tail, n.kind.declaration? = none
  /-- No name is that of a class in one unit and that of a module in another. -/
  apart : ∀ u ∈ d.units, ∀ t ∈ u.forest, ∀ v ∈ d.units, ∀ t' ∈ v.forest,
    ∀ name ∈ t.root.kind.declared?, t.declares .classes name = true →
      t'.declares .modules name = false
  /-- The class of a surviving object is declared in its own unit. -/
  objects : ∀ e ∈ d.definitions, ∀ u ∈ d.units[e.1]?, ∀ n ∈ e.2.nodes,
    ∀ name ∈ n.kind.class?, ∃ t ∈ u.forest, t.declares .classes name = true
  /-- So are the classes in the types of surviving operations. -/
  instances : ∀ e ∈ d.definitions, ∀ u ∈ d.units[e.1]?, ∀ n ∈ e.2.nodes, ∀ id ∈ n.types,
    ∀ names ∈ (d.types.classes id).toOption, ∀ name ∈ names,
      ∃ t ∈ u.forest, t.declares .classes name = true
  /-- And whatever their attributes refer to. -/
  symbols : ∀ e ∈ d.definitions, ∀ u ∈ d.units[e.1]?, ∀ n ∈ e.2.nodes, ∀ name ∈ n.refs,
    name ∈ u.declaredNames

namespace Design

variable {d d' : Design} {place : Equiv.Perm Nat} {lexicon : Lexicon} {unit : Nat} {name : Name}

def Names (d : Design) (unit : Nat) (name : Name) : Prop :=
  ∃ u, d.units[unit]? = some u ∧ name ∈ u.declaredNames

theorem names_iff : d.Names unit name ↔ ∃ space t, (unit, t) ∈ d.declarers space name := by
  unfold Names
  constructor
  · rintro ⟨u, hu, hname⟩
    obtain ⟨t, ht, hdeclared⟩ := LinkUnit.mem_declaredNames.mp hname
    rw [OpKind.declared?_eq, Option.map_eq_some_iff] at hdeclared
    obtain ⟨⟨space, name⟩, hdeclaration, rfl⟩ := hdeclared
    exact ⟨space, t, mem_declarers.mpr ⟨u, hu, ht, Tree.declares_iff.mpr hdeclaration⟩⟩
  · rintro ⟨space, t, ht⟩
    obtain ⟨u, hu, hmem, hdeclares⟩ := mem_declarers.mp ht
    exact ⟨u, hu, LinkUnit.mem_declaredNames.mpr ⟨t, hmem, Tree.declared?_of_declares hdeclares⟩⟩

structure Covers (d : Design) (unit : Nat) (n : Node) : Prop where
  names : ∀ name ∈ n.names, d.Names unit name
  types : ∀ id ∈ n.types, ∃ t, d.types.Denotes id t ∧ ∀ name ∈ t.classes, d.Names unit name

namespace Orderly

theorem space_eq (h : d.Orderly) {space space' : Space} {e e' : Nat × Tree}
    (he : e ∈ d.declarers space name) (he' : e' ∈ d.declarers space' name) : space = space' := by
  obtain ⟨u, hu, ht, hdeclares⟩ := mem_declarers.mp he
  obtain ⟨u', hu', ht', hdeclares'⟩ := mem_declarers.mp he'
  have differ : ∀ {u u' : LinkUnit} {t t' : Tree}, u ∈ d.units → t ∈ u.forest → u' ∈ d.units →
      t' ∈ u'.forest → t.declares .classes name = true → t'.declares .modules name = true →
      False := by
    intro u u' t t' hu ht hu' ht' hclass hmodule
    have other := h.apart u hu t ht u' hu' t' ht' name (Tree.declared?_of_declares hclass) hclass
    rw [hmodule] at other
    cases other
  have mem := List.mem_of_getElem? hu
  have mem' := List.mem_of_getElem? hu'
  cases space <;> cases space'
  · rfl
  · exact (differ mem ht mem' ht' hdeclares hdeclares').elim
  · exact (differ mem' ht' mem ht hdeclares' hdeclares).elim
  · rfl

theorem not_clash (h : d.Orderly) (policy : RenamePolicy) : ¬ d.Clash policy := by
  rintro ⟨e, he, e', he', name, -, hclass, hmodule, -⟩
  obtain ⟨t, ht, -, -⟩ := Phases.mem_definitions_of_declares he hclass
  obtain ⟨t', ht', -, -⟩ := Phases.mem_definitions_of_declares he' hmodule
  cases h.space_eq ht ht'

theorem covers (h : d.Orderly) (wf : d.WellFormed lexicon) {e : Nat × Tree}
    (he : e ∈ d.definitions) {n : Node} (hn : n ∈ e.2.nodes) : d.Covers e.1 n := by
  obtain ⟨unit, t⟩ := e
  obtain ⟨u, hu, whole, hwhole, -, rfl⟩ := mem_definitions.mp he
  have known : ∀ name, (∃ t ∈ u.forest, t.declares .classes name = true) → d.Names unit name := by
    rintro name ⟨t, ht, hdeclares⟩
    exact names_iff.mpr ⟨.classes, t, mem_declarers.mpr ⟨u, hu, ht, hdeclares⟩⟩
  have inWhole : n ∈ whole.nodes := whole.nodes_withoutStubs_sublist.subset hn
  refine ⟨fun name hname => ?_, fun id hid => ?_⟩
  · rcases List.mem_append.mp hname with hname | hname
    · rcases List.mem_append.mp hname with hname | hname
      · -- only the root declares anything
        have declared : n.kind.declared? = some name := by simpa using hname
        have isRoot : n = whole.root := by
          obtain ⟨root, regions⟩ := whole
          rw [Tree.nodes_node] at inWhole
          refine (List.mem_cons.mp inWhole).resolve_right fun nested => ?_
          have none_ := h.flat u (List.mem_of_getElem? hu) _ hwhole n (by
            rw [Tree.nodes_node]
            exact nested)
          rw [OpKind.declared?_eq, none_] at declared
          cases declared
        exact ⟨u, hu, LinkUnit.mem_declaredNames.mpr ⟨whole, hwhole, isRoot ▸ declared⟩⟩
      · exact known name (h.objects _ he u hu n hn name (by simpa using hname))
    · exact ⟨u, hu, h.symbols _ he u hu n hn name hname⟩
  · have inside := wf.typed u (List.mem_of_getElem? hu) whole hwhole n inWhole id hid
    obtain ⟨t, ht⟩ := TyStore.exists_denotes wf.closed wf.acyclic inside
    refine ⟨t, ht, fun name hname => known name ?_⟩
    exact h.instances _ he u hu n hn id hid t.classes (toOption_eq_some.mpr ht.classes_eq) name
      hname

end Orderly

namespace Shuffled

theorem orderly (h : Shuffled place d d') (o : d.Orderly) : d'.Orderly := by
  have original : ∀ e ∈ d'.definitions, (place.symm e.1, e.2) ∈ d.definitions := by
    intro e he
    obtain ⟨e, he', rfl⟩ := List.mem_map.mp (h.definitions.mem_iff.mp he)
    simpa using he'
  have unit : ∀ (e : Nat × Tree) (u : LinkUnit), d'.units[e.1]? = some u →
      d.units[place.symm e.1]? = some u := by
    intro e u hu
    rwa [h.symm.units]
  exact {
    unique := h.uniqueNames o.unique
    distinct := h.types ▸ o.distinct
    flat := fun u hu => o.flat u (h.mem_units hu)
    apart := fun u hu t ht v hv => o.apart u (h.mem_units hu) t ht v (h.mem_units hv)
    objects := fun e he u hu => o.objects _ (original e he) u (unit e u hu)
    instances := fun e he u hu n hn id hid => by
      rw [h.types]
      exact o.instances _ (original e he) u (unit e u hu) n hn id hid
    symbols := fun e he u hu => o.symbols _ (original e he) u (unit e u hu) }

end Shuffled

end Design

namespace Phases

variable {options options' : LinkOptions} {d d' : Design} {lexicon : Lexicon}
  {place : Equiv.Perm Nat} {unit unit' : Nat} {name name' : Name}

def merged (p : Phases options d lexicon) : LinkUnit := joined p.rewritten.units

theorem merged_forest (p : Phases options d lexicon) (wf : d.WellFormed lexicon) :
    p.merged.forest = d.definitions.map p.moved :=
  (joined_forest _).2.trans (p.forest_eq wf.forest)

theorem together_of_apply_eq (p : Phases options d lexicon) (wf : d.WellFormed lexicon)
    (o : d.Orderly) {space space' : Space} {t t' : Tree} (differ : unit ≠ unit')
    (ht : (unit, t) ∈ d.declarers space name) (ht' : (unit', t') ∈ d.declarers space' name')
    (same : p.naming.renames.apply unit name = p.naming.renames.apply unit' name') :
    name = name' ∧ d.apart space name = false := by
  obtain ⟨rfl, one | ⟨stays, stays'⟩⟩ := (p.apply_eq_iff wf ht ht').mp same
  · exact absurd one differ
  · obtain rfl := o.space_eq ht ht'
    refine ⟨rfl, Bool.eq_false_iff.mpr fun told => differ ?_⟩
    exact eq_of_not_choose options.policy (List.mem_map_of_mem ht) (List.mem_map_of_mem ht')
      (p.not_chosen wf.forest o.unique told ht stays)
      (p.not_chosen wf.forest o.unique told ht' stays')

/-- Which declarations get one name does not depend on the options or on the order of the units. -/
theorem apply_eq_of_apply_eq (s : Design.Shuffled place d d') (wf : d.WellFormed lexicon)
    (o : d.Orderly) (p : Phases options d lexicon) (p' : Phases options' d' lexicon)
    (hname : d.Names unit name) (hname' : d.Names unit' name')
    (same : p.naming.renames.apply unit name = p.naming.renames.apply unit' name') :
    p'.naming.renames.apply (place unit) name = p'.naming.renames.apply (place unit') name' := by
  obtain ⟨space, t, ht⟩ := Design.names_iff.mp hname
  obtain ⟨space', t', ht'⟩ := Design.names_iff.mp hname'
  by_cases one : unit = unit'
  · obtain ⟨rfl, -⟩ := (p.apply_eq_iff wf ht ht').mp same
    rw [one]
  · obtain ⟨rfl, together⟩ := p.together_of_apply_eq wf o one ht ht' same
    obtain rfl := o.space_eq ht ht'
    have wf' := s.wellFormed wf
    have unique' := s.uniqueNames o.unique
    have together' : d'.apart space name = false := (s.apart_eq space name).trans together
    have stays : ∀ {unit t}, (unit, t) ∈ d.declarers space name →
        p'.naming.renames.apply (place unit) name = name := fun ht =>
      Renaming.apply_eq_of_none (p'.get?_eq_none_of_together wf'.forest unique' together'
        ((s.declarers space name).mem_iff.mpr (List.mem_map_of_mem ht)))
    rw [stays ht, stays ht']

/-- Names and types of two links that correspond: what the one link makes of a name of a unit goes
with what the other makes of it, and so for the types. -/
structure Counterparts (place : Equiv.Perm Nat) (p : Phases options d lexicon)
    (p' : Phases options' d' lexicon) (partner : Name → Name) (retype : TyId → TyId) : Prop where
  names : ∀ unit name, d.Names unit name →
    partner (p.naming.renames.apply unit name) = p'.naming.renames.apply (place unit) name
  types : ∀ unit id t, unit < d.units.length → d.types.Denotes id t →
    (∀ name ∈ t.classes, d.Names unit name) → retype (p.remap unit id) = p'.remap (place unit) id

theorem exists_partner (s : Design.Shuffled place d d') (wf : d.WellFormed lexicon)
    (o : d.Orderly) (p : Phases options d lexicon) (p' : Phases options' d' lexicon) :
    ∃ partner : Name → Name, ∀ unit name, d.Names unit name →
      partner (p.naming.renames.apply unit name) =
        p'.naming.renames.apply (place unit) name := by
  let old : {e : Nat × Name // d.Names e.1 e.2} → Name :=
    fun e => p.naming.renames.apply e.1.1 e.1.2
  let new : {e : Nat × Name // d.Names e.1 e.2} → Name :=
    fun e => p'.naming.renames.apply (place e.1.1) e.1.2
  have factors : new.FactorsThrough old := fun e e' same =>
    apply_eq_of_apply_eq s wf o p p' e.2 e'.2 same
  have : Nonempty Name := ⟨⟨0⟩⟩
  obtain ⟨partner, h⟩ := (Function.factorsThrough_iff new).mp factors
  exact ⟨partner, fun unit name hname => (congrFun h ⟨(unit, name), hname⟩).symm⟩

theorem denotes_partner (s : Design.Shuffled place d d') (p' : Phases options' d' lexicon)
    {p : Phases options d lexicon} {partner : Name → Name}
    (names : ∀ unit name, d.Names unit name → partner (p.naming.renames.apply unit name) =
      p'.naming.renames.apply (place unit) name)
    (inside : unit < d.units.length) {id : TyId} {t : TyTree} (ht : d.types.Denotes id t)
    (known : ∀ name ∈ t.classes, d.Names unit name) :
    p'.rewritten.types.Denotes (p'.remap (place unit) id)
      ((t.rename (p.naming.renames.apply unit)).rename partner) := by
  have inside' : place unit < d'.units.length := by
    obtain ⟨hlt, -⟩ := List.getElem?_eq_some_iff.mp
      ((s.units unit).trans (List.getElem?_eq_getElem inside))
    exact hlt
  rw [TyTree.rename_rename fun name hname => names unit name (known name hname)]
  exact p'.denotes_remap inside' (s.types ▸ ht)

theorem exists_counterparts (s : Design.Shuffled place d d') (wf : d.WellFormed lexicon)
    (o : d.Orderly) (p : Phases options d lexicon) (p' : Phases options' d' lexicon) :
    ∃ partner retype, Counterparts place p p' partner retype := by
  obtain ⟨partner, names⟩ := exists_partner s wf o p p'
  have distinct : p'.rewritten.types.Nodup := (s.orderly o).distinct.buildAll p'.rewritten_eq.1
  let Known : Nat × TyId → Prop := fun e => e.1 < d.units.length ∧
    ∃ t, d.types.Denotes e.2 t ∧ ∀ name ∈ t.classes, d.Names e.1 name
  let old : {e // Known e} → TyId := fun e => p.remap e.1.1 e.1.2
  let new : {e // Known e} → TyId := fun e => p'.remap (place e.1.1) e.1.2
  have factors : new.FactorsThrough old := by
    rintro ⟨⟨unit, id⟩, inside, t, ht, known⟩ ⟨⟨unit', id'⟩, inside', t', ht', known'⟩ same
    have same : p.remap unit id = p.remap unit' id' := same
    have left := p.denotes_remap inside ht
    have right := p.denotes_remap inside' ht'
    rw [← same] at right
    have image := denotes_partner s p' names inside ht known
    rw [left.unique right] at image
    exact distinct.id_eq image (denotes_partner s p' names inside' ht' known')
  have : Nonempty TyId := ⟨⟨0⟩⟩
  obtain ⟨retype, h⟩ := (Function.factorsThrough_iff new).mp factors
  exact ⟨partner, retype, names, fun unit id t inside ht known =>
    (congrFun h ⟨(unit, id), inside, t, ht, known⟩).symm⟩

namespace Counterparts

variable {p : Phases options d lexicon} {p' : Phases options' d' lexicon} {partner : Name → Name}
  {retype : TyId → TyId}

/-- The images of one definition correspond. -/
theorem moved_eq (c : Counterparts place p p' partner retype) (wf : d.WellFormed lexicon)
    (o : d.Orderly) {e : Nat × Tree} (he : e ∈ d.definitions) :
    p'.moved (place e.1, e.2) =
      (p.moved e).mapNodes (Node.substitute partner retype) := by
  obtain ⟨u, hu, -⟩ := Design.mem_definitions.mp he
  have inside : e.1 < d.units.length := (List.getElem?_eq_some_iff.mp hu).1
  refine (Tree.mapNodes_mapNodes fun n hn => ?_).symm
  obtain ⟨names, types⟩ := o.covers wf he hn
  refine Node.substitute_substitute (fun name hname => c.names _ name (names name hname))
    fun id hid => ?_
  obtain ⟨t, ht, known⟩ := types id hid
  exact c.types _ id t inside ht known

theorem forest_perm (c : Counterparts place p p' partner retype)
    (s : Design.Shuffled place d d') (wf : d.WellFormed lexicon) (o : d.Orderly) :
    p'.merged.forest.Perm
      (p.merged.forest.map (Tree.mapNodes (Node.substitute partner retype))) := by
  have images := s.definitions.map p'.moved
  rw [List.map_map] at images
  rw [p'.merged_forest (s.wellFormed wf), p.merged_forest wf, List.map_map]
  refine images.trans (List.Perm.of_eq (List.map_congr_left fun e he => ?_))
  exact c.moved_eq wf o he

theorem denotes (c : Counterparts place p p' partner retype) (s : Design.Shuffled place d d')
    (wf : d.WellFormed lexicon) (o : d.Orderly) {t : Tree} (ht : t ∈ p.merged.forest) {n : Node}
    (hn : n ∈ t.nodes) {id : TyId} (hid : id ∈ n.types) :
    ∃ tree, p.rewritten.types.Denotes id tree ∧
      p'.rewritten.types.Denotes (retype id) (tree.rename partner) := by
  obtain ⟨e, he, inside, before, hbefore, rfl⟩ := p.exists_origin wf.forest ht hn
  rw [Node.types_substitute] at hid
  obtain ⟨old, hold, rfl⟩ := List.mem_map.mp hid
  obtain ⟨tree, htree, known⟩ := (o.covers wf he hbefore).types old hold
  refine ⟨_, p.denotes_remap inside htree, ?_⟩
  rw [c.types _ old tree inside htree known]
  exact denotes_partner s p' c.names inside htree known

theorem declaredNames_perm (c : Counterparts place p p' partner retype)
    (s : Design.Shuffled place d d') (wf : d.WellFormed lexicon) (o : d.Orderly) :
    p'.merged.declaredNames.Perm (p.merged.declaredNames.map partner) := by
  have names := (c.forest_perm s wf o).filterMap (·.root.kind.declared?)
  rw [List.filterMap_map] at names
  rw [LinkUnit.declaredNames, LinkUnit.declaredNames, List.map_filterMap]
  refine names.trans (List.Perm.of_eq (List.filterMap_congr fun t _ => ?_))
  rw [Function.comp_apply, Tree.root_mapNodes, Node.declared?_substitute]

/-- If nothing is wrong with the one unit, nothing is with the other. -/
theorem misuses_eq_nil (c : Counterparts place p p' partner retype)
    (s : Design.Shuffled place d d') (wf : d.WellFormed lexicon) (o : d.Orderly)
    {words : Lexicon} (fine : p.merged.misuses p.rewritten.types words = .ok []) :
    p'.merged.misuses p'.rewritten.types p'.naming.lexicon = .ok [] := by
  obtain ⟨-, fits⟩ := LinkUnit.fits_of_misuses (joined_forest _).1 fine
  have images := c.forest_perm s wf o
  refine (LinkUnit.misuses_eq_nil_iff (joined_forest _).1 p'.known_declaredNames).mpr
    ⟨?_, fun t ht n hn => ?_⟩
  · exact (p'.nodup_declaredNames_iff (s.wellFormed wf) (s.uniqueNames o.unique)).mpr
      ((s.orderly o).not_clash _)
  · obtain ⟨before, hbefore, rfl⟩ := List.mem_map.mp (images.mem_iff.mp ht)
    rw [Tree.nodes_mapNodes] at hn
    obtain ⟨old, hold, rfl⟩ := List.mem_map.mp hn
    have distinct : p'.rewritten.types.Nodup := (s.orderly o).distinct.buildAll p'.rewritten_eq.1
    have denoted : ∀ id ∈ old.types, ∃ tree, p.rewritten.types.Denotes id tree ∧
        p'.rewritten.types.Denotes (retype id) (tree.rename partner) :=
      fun _ hid => c.denotes s wf o hbefore hold hid
    refine (fits before hbefore old hold).substitute (fun head hhead => ?_)
      (fun id hid name hlookup => ?_) denoted fun name hname => ?_
    · obtain ⟨t, ht, hkind⟩ := LinkUnit.mem_definedClasses.mp hhead
      refine ⟨head.substitute partner retype,
        LinkUnit.mem_definedClasses.mpr ⟨t.mapNodes (Node.substitute partner retype),
          images.mem_iff.mpr (List.mem_map_of_mem ht), ?_⟩, rfl, ?_⟩
      · rw [Tree.root_mapNodes, Node.substitute, hkind]
        rfl
      · simp [ClassHead.substitute]
    · obtain ⟨t, ht, ht'⟩ := denoted id hid
      exact distinct.lookup_rename hlookup ht ht'
    · exact (c.declaredNames_perm s wf o).mem_iff.mpr (List.mem_map_of_mem hname)

end Counterparts

end Phases

/-- One unit is another with every name and every type replaced by its counterpart, one for one. -/
structure LinkUnit.Mirrors (partner : Name → Name) (retype : TyId → TyId) (types types' : TyStore)
    (u u' : LinkUnit) : Prop where
  forest : u'.forest.Perm (u.forest.map (Tree.mapNodes (Node.substitute partner retype)))
  names : u.declaredNames.Nodup ∧ u'.declaredNames.Nodup
  injective : Set.InjOn partner {name | name ∈ u.declaredNames}
  types : ∀ t ∈ u.forest, ∀ n ∈ t.nodes, ∀ id ∈ n.types, ∃ tree, types.Denotes id tree ∧
    types'.Denotes (retype id) (tree.rename partner)

theorem Phases.Counterparts.mirrors {options options' : LinkOptions} {d d' : Design}
    {lexicon : Lexicon} {place : Equiv.Perm Nat} {p : Phases options d lexicon}
    {p' : Phases options' d' lexicon} {partner : Name → Name} {retype : TyId → TyId}
    (c : Counterparts place p p' partner retype) (s : Design.Shuffled place d d')
    (wf : d.WellFormed lexicon) (o : d.Orderly) :
    p.merged.Mirrors partner retype p.rewritten.types p'.rewritten.types p'.merged := by
  have nodup := (p.nodup_declaredNames_iff wf o.unique).mpr (o.not_clash _)
  have nodup' := (p'.nodup_declaredNames_iff (s.wellFormed wf) (s.uniqueNames o.unique)).mpr
    ((s.orderly o).not_clash _)
  have images := (c.declaredNames_perm s wf o).nodup_iff.mp nodup'
  exact {
    forest := c.forest_perm s wf o
    names := ⟨nodup, nodup'⟩
    injective := fun _ hname _ hname' same => List.inj_on_of_nodup_map images hname hname' same
    types := fun _ ht _ hn _ hid => c.denotes s wf o ht hn hid }

theorem Design.Shuffled.links {pool : WorkerPool} {options options' : LinkOptions}
    {d d' : Design} {lexicon : Lexicon} {place : Equiv.Perm Nat} (s : Design.Shuffled place d d')
    (wf : d.WellFormed lexicon) (o : d.Orderly) (spoken : d.Spoken lexicon)
    (threads : pool.Starts options.threads → pool.Starts options'.threads)
    (checked : options.verify = true) {log log' : Log}
    (h : ∃ linked summary, link pool options d lexicon log = .ok linked ∧
      linked.result = .ok summary) :
    ∃ linked summary, link pool options' d' lexicon log' = .ok linked ∧
      linked.result = .ok summary := by
  obtain ⟨linked, summary, h, success⟩ := h
  have covered := covered_of_link wf.forest h success
  obtain ⟨starts, -⟩ := starts_of_link h success
  obtain ⟨p, -, -, -, fine⟩ := link_phases h success
  obtain ⟨p'⟩ := s.exists_phases wf covered spoken p options'
  obtain ⟨partner, retype, c⟩ := Phases.exists_counterparts s wf o p p'
  have fine' : p'.merged.misuses p'.rewritten.types p'.naming.lexicon = .ok [] :=
    c.misuses_eq_nil s wf o (fine checked)
  have counted := (p'.covered_iff (s.wellFormed wf).forest).mpr (s.covered covered)
  rw [link_of_starts (threads starts), p'.linkUnits_eq,
    finish_eq counted p'.summary log' fun _ => fine']
  exact ⟨_, _, rfl, rfl⟩

/-- Up to renaming, what comes of a checked link depends neither on the options nor on the order of
the units, where a pool starts for both or for neither. It succeeds for both or for neither. If it
does for both, there is for each name of the one result a partner in the other, distinct ones for
distinct names, and the images of a definition in the two results differ by putting partners for
names. -/
theorem link_up_to_renaming {d : Design} {lexicon : Lexicon} (wf : d.WellFormed lexicon)
    (o : d.Orderly) (spoken : d.Spoken lexicon) (order : Equiv.Perm (Fin d.units.length))
    {pool : WorkerPool} {options options' : LinkOptions}
    (threads : pool.Starts options.threads ↔ pool.Starts options'.threads)
    (checked : options.verify = true) (checked' : options'.verify = true) (log log' : Log) :
    ((∃ linked summary, link pool options d lexicon log = .ok linked ∧
        linked.result = .ok summary) ↔
      ∃ linked summary, link pool options' (d.reordered order) lexicon log' = .ok linked ∧
        linked.result = .ok summary) ∧
    ∀ linked summary linked' summary', link pool options d lexicon log = .ok linked →
      linked.result = .ok summary →
      link pool options' (d.reordered order) lexicon log' = .ok linked' →
      linked'.result = .ok summary' →
      ∃ (merged merged' : LinkUnit) (image image' : Nat × Tree → Tree) (partner : Name → Name)
        (retype : TyId → TyId),
        linked.design.units = [merged] ∧ linked'.design.units = [merged'] ∧
        merged.forest = d.definitions.map image ∧
        merged'.forest = (d.reordered order).definitions.map image' ∧
        (∀ (unit : Fin d.units.length) (t : Tree), (unit.val, t) ∈ d.definitions →
          ((order unit).val, t) ∈ (d.reordered order).definitions ∧
          image' (order unit, t) =
            (image (unit, t)).mapNodes (Node.substitute partner retype)) ∧
        merged.Mirrors partner retype linked.design.types linked'.design.types merged' := by
  obtain ⟨place, agrees, s⟩ := d.exists_shuffled order
  refine ⟨⟨s.links wf o spoken threads.mp checked,
    s.symm.links (s.wellFormed wf) (s.orderly o) (s.spoken spoken) threads.mpr checked'⟩, ?_⟩
  intro linked summary linked' summary' h success h' success'
  obtain ⟨p, hdesign, -⟩ := link_phases h success
  obtain ⟨p', hdesign', -⟩ := link_phases h' success'
  obtain ⟨partner, retype, c⟩ := Phases.exists_counterparts s wf o p p'
  refine ⟨p.merged, p'.merged, p.moved, p'.moved, partner, retype, by rw [hdesign]; rfl,
    by rw [hdesign']; rfl, p.merged_forest wf, p'.merged_forest (s.wellFormed wf),
    fun unit t hmem => ?_, ?_⟩
  · rw [← agrees]
    exact ⟨s.definitions.mem_iff.mpr (List.mem_map_of_mem hmem), c.moved_eq wf o hmem⟩
  · rw [hdesign, hdesign']
    exact c.mirrors s wf o

theorem busDesign_orderly : busDesign.Orderly where
  unique := by decide
  distinct := by decide
  flat := by decide
  apart := by decide
  objects := by decide
  instances := by decide
  symbols := by decide

/-- The two units of the example in the other order, and with both of two classes renamed instead
of the second one: the five definitions correspond. -/
theorem link_up_to_renaming_bus :
    busDesign.WellFormed busNames ∧ busDesign.Orderly ∧ busDesign.Spoken busNames ∧
      LinkOptions.standard.verify = true ∧
      ∃ linked linked' merged merged' partner retype,
        link .granted .standard busDesign busNames .empty = .ok linked ∧
        link .granted { LinkOptions.standard with policy := .renameAll }
          (busDesign.reordered (Equiv.swap ⟨0, by decide⟩ ⟨1, by decide⟩)) busNames .empty =
            .ok linked' ∧
        linked.design.units = [merged] ∧ linked'.design.units = [merged'] ∧
        merged.forest.length = 5 ∧
        merged.Mirrors partner retype linked.design.types linked'.design.types merged' := by
  let both : LinkOptions := { LinkOptions.standard with policy := .renameAll }
  have starts : WorkerPool.granted.Starts LinkOptions.standard.threads := rfl
  have starts' : WorkerPool.granted.Starts both.threads := rfl
  obtain ⟨equally, alike⟩ := link_up_to_renaming busDesign_wellFormed busDesign_orderly
    busDesign_legible.spoken (Equiv.swap ⟨0, by decide⟩ ⟨1, by decide⟩)
    (iff_of_true starts starts') rfl
    rfl .empty .empty
  obtain ⟨linked, summary, h, success, -⟩ := linkable_links busDesign_wellFormed (by decide)
    busDesign_legible.spoken busDesign_linkable .standard starts .empty
  obtain ⟨linked', summary', h', success'⟩ := equally.mp ⟨linked, summary, h, success⟩
  obtain ⟨merged, merged', image, image', partner, retype, hunits, hunits', hforest, -, -,
      mirrors⟩ := alike linked summary linked' summary' h success h' success'
  refine ⟨busDesign_wellFormed, busDesign_orderly, busDesign_legible.spoken, rfl, linked, linked',
    merged, merged', partner, retype, h, h', hunits, hunits', ?_, mirrors⟩
  rw [hforest, List.length_map]
  decide

end Linkage
