import Linkage.Proofs.Phases
/-!
Linking as substitution. The one unit that a link leaves holds the definitions of all units, in
order and without their stubs, and all that has changed in them are names: those of a unit by one
simultaneous substitution, in declarations, objects, attributes and types alike.
-/
namespace Linkage

/-- What is read off an operation and off the one that it has become: the names that it declares, is
an instance of and refers to, and the trees of its types, place by place under one substitution. -/
structure Node.Becomes (types types' : TyStore) (s : Name → Name) (n n' : Node) : Prop where
  declared : n'.kind.declared? = n.kind.declared?.map s
  ofClass : n'.kind.class? = n.kind.class?.map s
  refs : n'.refs = n.refs.map s
  types : ∃ ts, n.types.mapM types.tree = .ok ts ∧
    n'.types.mapM types'.tree = .ok (ts.map (TyTree.rename s))

theorem Node.becomes_substitute {types types' : TyStore} {s : Name → Name} {f : TyId → TyId}
    {n : Node} (trees : ∀ id ∈ n.types, ∃ t, types.tree id = .ok t ∧
      types'.tree (f id) = .ok (t.rename s)) : n.Becomes types types' s (n.substitute s f) := by
  obtain ⟨ts, hts⟩ := exists_forall₂ trees
  refine ⟨declared?_substitute s f n, class?_substitute s f n, refs_substitute s f n, ts, ?_, ?_⟩
  · exact mapM_eq_ok.mpr (hts.imp fun _ _ h => h.1)
  · rw [types_substitute, mapM_eq_ok, List.forall₂_map_left_iff, List.forall₂_map_right_iff]
    exact hts.imp fun _ _ h => h.2

/-- A link that succeeds leaves one unit. Its trees are the definitions of the units in order,
each operation of unit `i` under the substitution that the renaming is for `i`, and the types of
its operations stand for what they stood for under the same substitution. -/
theorem link_refines_substitution {pool : WorkerPool} {options : LinkOptions} {d : Design}
    {lexicon : Lexicon} {log : Log} {linked : Linked} {summary : Summary}
    (wf : d.WellFormed lexicon)
    (h : link pool options d lexicon log = .ok linked) (success : linked.result = .ok summary) :
    ∃ (naming : Naming) (merged : LinkUnit) (remap : Nat → TyId → TyId),
      d.naming options lexicon = .ok naming ∧
      linked.design.units = [merged] ∧
      merged.id = ⟨0⟩ ∧ merged.tag = none ∧ merged.span = .dummy ∧
      merged.IsForest ∧
      (merged.forest = d.definitions.map fun (unit, t) =>
        t.mapNodes (Node.substitute (naming.renames.apply unit) (remap unit))) ∧
      List.Forall₂ (fun (unit, t) t' => List.Forall₂ (Node.Becomes d.types linked.design.types
        (naming.renames.apply unit)) t.nodes t'.nodes) d.definitions merged.forest ∧
      ∀ unit < d.units.length, ∀ id : TyId, id.index < d.types.size →
        ∃ t, d.types.tree id = .ok t ∧
          linked.design.types.tree (remap unit id) =
            .ok (t.rename (naming.renames.apply unit)) := by
  obtain ⟨phases, hdesign, -, -, -⟩ := link_phases h success
  obtain ⟨hforest, htrees⟩ := joined_forest phases.rewritten.units
  have trees : ∀ unit < d.units.length, ∀ id : TyId, id.index < d.types.size →
      ∃ t, d.types.tree id = .ok t ∧ linked.design.types.tree (phases.remap unit id) =
        .ok (t.rename (phases.naming.renames.apply unit)) := by
    intro unit hunit id inside
    obtain ⟨t, ht⟩ := TyStore.exists_denotes wf.closed wf.acyclic inside
    refine ⟨t, TyStore.denotes_iff_tree.mp ht, ?_⟩
    rw [hdesign]
    exact TyStore.denotes_iff_tree.mp (phases.denotes_remap hunit ht)
  have moved : (joined phases.rewritten.units).forest = d.definitions.map phases.moved := by
    rw [htrees, phases.forest_eq wf.forest]
  refine ⟨phases.naming, joined phases.rewritten.units, phases.remap, phases.naming_eq, ?_,
    rfl, rfl, rfl, hforest, moved, ?_, trees⟩
  · rw [hdesign]
  · rw [moved, List.forall₂_map_right_iff, List.forall₂_same]
    intro ⟨unit, t⟩ he
    dsimp only
    rw [Phases.moved, Tree.nodes_mapNodes, List.forall₂_map_right_iff, List.forall₂_same]
    intro n hn
    obtain ⟨u, hu, before, hbefore, -, rfl⟩ := Design.mem_definitions.mp he
    exact Node.becomes_substitute fun id hid =>
      trees unit (List.getElem?_eq_some_iff.mp hu).1 id (wf.typed u (List.mem_of_getElem? hu)
        before hbefore n (before.nodes_withoutStubs_sublist.subset hn) id hid)

def Design.links (options : LinkOptions) (d : Design) (lexicon : Lexicon) : Bool :=
  match link .granted options d lexicon .empty with
  | .ok linked => linked.result.isOk
  | .error _ => false

theorem Design.links_iff {options : LinkOptions} {d : Design} {lexicon : Lexicon} :
    d.links options lexicon = true ↔ ∃ linked summary,
      link .granted options d lexicon .empty = .ok linked ∧ linked.result = .ok summary := by
  unfold links
  cases link .granted options d lexicon .empty with
  | error fault => simp
  | ok linked =>
    cases hresult : linked.result with
    | error failure => simp [hresult, Except.isOk, Except.toBool]
    | ok summary => simp [hresult, Except.isOk, Except.toBool]

def muxNames : Lexicon := ⟨#["mux2", "adder", "cell", "uses", "port"], by decide⟩

def muxOp (kind : OpKind) (refs : List Name) (regions : List (List OpId)) : Op :=
  ⟨⟨kind, .dummy, refs.map fun name => (⟨3⟩, .ref name), []⟩, regions⟩

def muxUnit (ops : List Op) (body : List OpId) : LinkUnit :=
  ⟨⟨0⟩, none, .dummy, ⟨(ops.map some).toArray, ops.length⟩, body⟩

/-- Two units, each with a class and a module of its own under the same names. The first relies on
the adder of the second. -/
def muxDesign : Design where
  types := ⟨#[.bool, .instanceOf ⟨2⟩, .list ⟨1⟩]⟩
  units :=
    [muxUnit
      [muxOp (.classDef ⟨⟨2⟩, [], []⟩) [] [],
        muxOp (.moduleDef .local ⟨⟨0⟩, [⟨⟨4⟩, .input, ⟨2⟩⟩]⟩) [⟨1⟩] [[⟨3⟩]],
        muxOp (.moduleStub ⟨⟨1⟩, [⟨⟨4⟩, .input, ⟨0⟩⟩]⟩) [] [],
        muxOp (.generic ⟨3⟩) [⟨0⟩, ⟨1⟩] []]
      [⟨0⟩, ⟨1⟩, ⟨2⟩],
    muxUnit
      [muxOp (.classDef ⟨⟨2⟩, [], []⟩) [] [],
        muxOp (.moduleDef .local ⟨⟨0⟩, [⟨⟨4⟩, .input, ⟨2⟩⟩]⟩) [⟨0⟩, ⟨1⟩] [],
        muxOp (.moduleDef .exported ⟨⟨1⟩, [⟨⟨4⟩, .input, ⟨0⟩⟩]⟩) [] []]
      [⟨0⟩, ⟨1⟩, ⟨2⟩]]

theorem muxDesign_wellFormed : muxDesign.WellFormed muxNames where
  forest := by decide
  typed := by decide
  closed := TyStore.Ordered.closed (by decide)
  acyclic := TyStore.Ordered.acyclic (by decide)
  named := by decide

theorem muxDesign_legible : muxDesign.Legible muxNames where
  tags := by decide
  words := by decide
  classes := by decide

theorem muxDesign_links : muxDesign.links .standard muxNames = true := by decide +kernel

/-- The five definitions of the two units are all there, and the stub is gone. -/
theorem link_refines_substitution_mux :
    ∃ linked summary merged, link .granted .standard muxDesign muxNames .empty = .ok linked ∧
      linked.result = .ok summary ∧ linked.design.units = [merged] ∧ merged.IsForest ∧
      merged.forest.length = 5 := by
  obtain ⟨linked, summary, h, success⟩ := Design.links_iff.mp muxDesign_links
  obtain ⟨naming, merged, remap, -, hunits, -, -, -, hforest, htrees, -, -⟩ :=
    link_refines_substitution muxDesign_wellFormed h success
  refine ⟨linked, summary, merged, h, success, hunits, hforest, ?_⟩
  rw [htrees, List.length_map]
  decide

end Linkage
