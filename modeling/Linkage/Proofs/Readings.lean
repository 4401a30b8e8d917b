import Linkage.Proofs.Outcomes
import Linkage.Proofs.SymbolUses
import Linkage.Proofs.Verdicts
/-!
What the check of a unit reads. It looks up the types that its operations mention, those of their
own and those of the classes that they are instances of, and writes out names in them; and it comes
to no end but those of looking up types and texts.
-/
namespace Linkage

/-- The types and the names that an operation mentions are among these. -/
structure Node.Within (known : TyId → Prop) (spoken : Name → Prop) (n : Node) : Prop where
  types : ∀ id ∈ n.types, known id
  words : ∀ name ∈ n.words, spoken name

namespace Node.Within

variable {known : TyId → Prop} {spoken : Name → Prop} {n : Node}

theorem declared (h : n.Within known spoken) : ∀ name ∈ n.kind.declared?, spoken name := by
  intro name hname
  refine h.words name ?_
  simp [Node.words, Option.mem_def.mp hname]

theorem member (h : n.Within known spoken) : ∀ name ∈ n.kind.members, spoken name := by
  intro name hname
  refine h.words name ?_
  simp [Node.words, hname]

theorem ofClass (h : n.Within known spoken) : ∀ name ∈ n.kind.class?, spoken name := by
  intro name hname
  refine h.words name ?_
  simp [Node.words, Option.mem_def.mp hname]

theorem ref (h : n.Within known spoken) : ∀ name ∈ n.refs, spoken name := by
  intro name hname
  refine h.words name ?_
  simp [Node.words, hname]

end Node.Within

/-- A store and a lexicon that can be read at these types and names, except for faults that are
excused. -/
structure TyStore.Readable (types : TyStore) (lexicon : Lexicon) (known : TyId → Prop)
    (spoken : Name → Prop) (excused : Fault → Prop) : Prop where
  display : ∀ id, known id → Ends (fun _ => True) excused (types.display lexicon id)
  classes : ∀ id, known id → Ends (fun names => ∀ name ∈ names, spoken name) excused
    (types.classes id)
  text : ∀ name, spoken name → Ends (fun _ => True) excused (lexicon.text name)

section

variable {known : TyId → Prop} {spoken : Name → Prop} {excused : Fault → Prop}

theorem TopLevel.ofOps_ends (lexicon : Lexicon) {ops : List Op}
    (declared : ∀ op ∈ ops, ∀ name ∈ op.kind.declared?,
      Ends (fun _ => True) excused (lexicon.text name)) :
    Ends (fun out => ∀ name head, (name, head) ∈ out.2.classes →
        ∃ op ∈ ops, op.kind = .classDef head) excused (ofOps lexicon ops) := by
  let Entered (t : TopLevel) : Prop := ∀ name head, (name, head) ∈ t.classes →
    ∃ op ∈ ops, op.kind = .classDef head
  refine (Ends.mapAccumM (L := fun _ _ => True) (R := fun _ _ _ => True) (I := Entered)
    (fun _ => trivial) (fun _ _ => trivial) (fun _ _ => trivial)
    (fun t _ entered op hop => ?_) ?_).bind fun ⟨found, t⟩ ⟨_, entered, _⟩ => entered
  · unfold add
    split
    · exact ⟨trivial, entered, trivial⟩
    · next name hname =>
      split
      · exact (declared op hop name hname).bind fun _ _ => ⟨trivial, entered, trivial⟩
      · dsimp only
        split
        · next head hkind =>
          refine ⟨trivial, fun other found hmem => ?_, trivial⟩
          rcases List.mem_cons.mp hmem with heq | hmem
          · cases heq
            exact ⟨op, hop, hkind⟩
          · exact entered other found hmem
        · exact ⟨trivial, entered, trivial⟩
  · intro name head hmem
    cases hmem

namespace Scope

variable {s : Scope} (readable : s.types.Readable s.lexicon known spoken excused)

include readable

theorem checkActuals_ends {head : ClassHead} {actuals : List TyId}
    (formal : ∀ id ∈ head.types, known id) (actual : ∀ id ∈ actuals, known id) :
    Ends (fun _ => True) excused (s.checkActuals head actuals) := by
  unfold checkActuals
  split
  · trivial
  · cases found : (head.params.zip actuals).zipIdx.find? fun e => e.1.1.ty ≠ e.1.2 with
    | none => trivial
    | some e =>
      obtain ⟨⟨param, id⟩, index⟩ := e
      have paired := List.mem_of_getElem?
        (List.mem_zipIdx_iff_getElem?.mp (List.mem_of_find?_eq_some found))
      have listed := List.of_mem_zip paired
      have left := formal param.ty (List.mem_append_left _ (List.mem_map_of_mem listed.1))
      refine (readable.display param.ty left).bind fun _ _ => ?_
      exact (readable.display id (actual id listed.2)).bind fun _ _ => trivial

theorem checkResults_ends {results : List TyId} (ofClass : Name) (text : String)
    (produced : ∀ id ∈ results, known id) :
    Ends (fun _ => True) excused (s.checkResults ofClass text results) := by
  have texts : Ends (fun _ => True) excused (results.mapM (s.types.display s.lexicon)) :=
    (Ends.mapM (R := fun _ _ => True) fun id hid =>
      readable.display id (produced id hid)).imp (fun _ _ => trivial) fun _ h => h
  unfold checkResults
  dsimp only
  split
  · split
    · trivial
    · exact texts.bind fun _ _ => trivial
  · exact texts.bind fun _ _ => trivial

theorem mapM_undefined_ends {kind : String} {span : Span} {names : List Name}
    (listed : ∀ name ∈ names, spoken name) :
    Ends (fun _ => True) excused (names.mapM (s.undefined kind span)) := by
  refine (Ends.mapM (R := fun _ _ => True) fun name hname => ?_).imp (fun _ _ => trivial)
    fun _ h => h
  exact (readable.text name (listed name hname)).bind fun _ _ => trivial

theorem check_ends {n : Node}
    (classes : ∀ name head, (name, head) ∈ s.topLevel.classes → ∀ id ∈ head.types, known id)
    (within : n.Within known spoken) : Ends (fun _ => True) excused (s.check n) := by
  have unfitting : Ends (fun _ => True) excused (s.unfitting n) := by
    unfold unfitting
    split
    · next ofClass actuals hkind =>
      refine (readable.text ofClass (within.ofClass ofClass (by rw [hkind]; rfl))).bind
        fun text _ => ?_
      cases found : s.topLevel.classes.lookup ofClass with
      | none => trivial
      | some head =>
        obtain ⟨before, after, split, -⟩ := List.lookup_eq_some_iff.mp found
        have listed : (ofClass, head) ∈ s.topLevel.classes := by
          rw [split]
          exact List.mem_append_right _ List.mem_cons_self
        refine (checkActuals_ends readable (classes ofClass head listed) fun id hid =>
          within.types id (List.mem_append_right _ (by rwa [hkind]))).bind fun _ _ => ?_
        exact (checkResults_ends readable ofClass text fun id hid =>
          within.types id (List.mem_append_left _ hid)).bind fun _ _ => trivial
    · trivial
  have missing : Ends (fun names => ∀ name ∈ names, spoken name) excused (s.missingClasses n) := by
    refine (Ends.mapM fun id hid => readable.classes id (within.types id hid)).bind
      fun mentioned each name hname => ?_
    obtain ⟨names, hnames, hname⟩ :=
      List.mem_flatten.mp (List.mem_of_mem_filter (mem_distinct.mp hname))
    obtain ⟨id, -, spoken⟩ := forall₂_exists_left each hnames
    exact spoken name hname
  have symbols : ∀ name ∈ s.missingSymbols n, spoken name := fun name hname =>
    within.ref name (List.mem_of_mem_filter (mem_distinct.mp hname))
  rw [check_eq]
  refine unfitting.bind fun _ _ => missing.bind fun names listed => ?_
  refine (mapM_undefined_ends readable listed).bind fun _ _ => ?_
  exact (mapM_undefined_ends readable symbols).bind fun _ _ => trivial

end Scope

/-- The check of a merged unit walks over a forest, so it comes to no end but those of the checks of
its operations. -/
theorem LinkUnit.misuses_ends {u : LinkUnit} (forest : u.IsForest) {types : TyStore}
    {lexicon : Lexicon} (readable : types.Readable lexicon known spoken excused)
    (within : ∀ t ∈ u.forest, ∀ n ∈ t.nodes, n.Within known spoken) :
    Ends (fun _ => True) excused (u.misuses types lexicon) := by
  obtain ⟨ps, hps⟩ := isForest_iff.mp forest
  have each : ∀ e ∈ ps.flatMap Placed.entries, e.2.toNode.Within known spoken := by
    intro e he
    obtain ⟨p, hp, he⟩ := List.mem_flatMap.mp he
    refine within p.tree ?_ e.2.toNode ?_
    · rw [forest_eq hps]
      exact List.mem_map_of_mem hp
    · rw [Placed.nodes_tree]
      exact List.mem_map_of_mem he
  have roots : ∀ op ∈ ps.map (·.op), op.toNode.Within known spoken := by
    intro op hop
    obtain ⟨p, hp, rfl⟩ := List.mem_map.mp hop
    exact each _ (List.mem_flatMap.mpr ⟨p, hp, p.mem_entries⟩)
  have entered := TopLevel.ofOps_ends lexicon fun op hop name hname =>
    readable.text name ((roots op hop).declared name hname)
  unfold misuses
  rw [topLevel_eq hps, ok_bind]
  simp only [List.map_map]
  refine entered.bind fun ⟨duplicates, topLevel⟩ defined => ?_
  have classes : ∀ name head, (name, head) ∈ topLevel.classes → ∀ id ∈ head.types, known id := by
    intro name head hmem id hid
    obtain ⟨op, hop, hkind⟩ := defined name head hmem
    refine (roots op hop).types id (List.mem_append_right _ ?_)
    rwa [hkind]
  rw [fold_eq hps]
  refine Ends.foldlM (fun found _ e he => ?_) trivial
  exact (Scope.check_ends readable classes (each e he)).bind fun _ _ => trivial

end

end Linkage
