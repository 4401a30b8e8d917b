import Linkage.Link.SymbolUse
import Linkage.Proofs.Mentions
import Linkage.Proofs.Uprooting
/-!
A unit in which no name is used wrongly. The check finds nothing exactly if the names at top level
differ, every operation fits what is declared there, and the classes of objects have texts. Those of
declared classes do, and then it does not matter which.
-/
namespace Linkage

namespace OpKind

def definedClass? : OpKind → Option ClassHead
  | .classDef head => some head
  | _ => none

theorem definedClass?_eq_some {kind : OpKind} {head : ClassHead} :
    kind.definedClass? = some head ↔ kind = .classDef head := by
  cases kind <;> simp [definedClass?]

theorem declared?_of_definedClass? {kind : OpKind} {head : ClassHead}
    (h : kind.definedClass? = some head) : kind.declared? = some head.name := by
  rw [definedClass?_eq_some.mp h]
  rfl

end OpKind

/-- An operation that uses names as it should where these classes can be instantiated and these
names are declared. An object takes what its class asks for and yields one instance of it, under
the id that the store gives to the type of such instances. -/
structure Node.Fits (types : TyStore) (classes : List ClassHead) (names : List Name) (n : Node) :
    Prop where
  object : ∀ ofClass actuals, n.kind = .object ofClass actuals → ∃ head ∈ classes,
    head.name = ofClass ∧ head.params.map (·.ty) = actuals ∧
      ∃ result, n.results = [result] ∧ types.lookup (.instanceOf ofClass) = some result
  instances : ∃ mentioned, n.types.mapM types.classes = .ok mentioned ∧
    ∀ name ∈ mentioned.flatten, ∃ head ∈ classes, head.name = name
  symbols : ∀ name ∈ n.refs, name ∈ names

/-- After a substitution an operation still fits where the classes, the names and the types that
it uses have become what they are substituted with. -/
theorem Node.Fits.substitute {types types' : TyStore} {classes classes' : List ClassHead}
    {names names' : List Name} {s : Name → Name} {f : TyId → TyId} {n : Node}
    (fits : n.Fits types classes names)
    (heads : ∀ head ∈ classes, ∃ head' ∈ classes', head'.name = s head.name ∧
      head'.params.map (·.ty) = (head.params.map (·.ty)).map f)
    (looked : ∀ id ∈ n.types, ∀ name, types.lookup (.instanceOf name) = some id →
      types'.lookup (.instanceOf (s name)) = some (f id))
    (denoted : ∀ id ∈ n.types, ∃ t, types.Denotes id t ∧ types'.Denotes (f id) (t.rename s))
    (known : ∀ name ∈ names, s name ∈ names') :
    (n.substitute s f).Fits types' classes' names' := by
  refine ⟨fun ofClass actuals hkind => ?_, ?_, fun name hname => ?_⟩
  · obtain ⟨old, formals, hold, rfl, rfl⟩ : ∃ old formals, n.kind = .object old formals ∧
        s old = ofClass ∧ formals.map f = actuals := by
      cases hn : n.kind <;> simp_all [Node.substitute, OpKind.substitute]
    obtain ⟨head, hhead, rfl, hparams, result, hresult, hlookup⟩ := fits.object old formals hold
    obtain ⟨head', hhead', hname, hparams'⟩ := heads head hhead
    have listed : result ∈ n.types := List.mem_append_left _ (by simp [hresult])
    refine ⟨head', hhead', hname, by rw [hparams', hparams], f result, ?_, ?_⟩
    · simp [Node.substitute, hresult]
    · exact looked result listed _ hlookup
  · obtain ⟨mentioned, hmentioned, instances⟩ := fits.instances
    obtain ⟨ts, hts⟩ := exists_forall₂ denoted
    obtain rfl : ts.map TyTree.classes = mentioned := Except.ok.inj
      ((TyStore.mapM_classes_eq (hts.imp fun _ _ h => h.1)).symm.trans hmentioned)
    have renamed : List.Forall₂ types'.Denotes (n.types.map f) (ts.map (TyTree.rename s)) := by
      rw [List.forall₂_map_left_iff, List.forall₂_map_right_iff]
      exact hts.imp fun _ _ h => h.2
    rw [Node.types_substitute]
    refine ⟨_, TyStore.mapM_classes_rename renamed, fun name hname => ?_⟩
    rw [← List.map_flatten] at hname
    obtain ⟨old, hold, rfl⟩ := List.mem_map.mp hname
    obtain ⟨head, hhead, rfl⟩ := instances old hold
    obtain ⟨head', hhead', hname', -⟩ := heads head hhead
    exact ⟨head', hhead', hname'⟩
  · rw [Node.refs_substitute] at hname
    obtain ⟨old, hold, rfl⟩ := List.mem_map.mp hname
    exact known old (fits.symbols old hold)

inductive Misuse.Told (lexicon : Lexicon) : Nat → Misuse → Prop
  | undefined (kind : String) {name : Name} {text : String} (h : lexicon.text name = .ok text)
      (span : Span) : Told lexicon 305 ⟨name, Report.undefined kind text span⟩
  | unfit {name : Name} {text : String} (h : lexicon.text name = .ok text) (detail : String)
      (span : Span) : Told lexicon 306 ⟨name, Report.unfit text detail span⟩
  | duplicate {name : Name} {text : String} (h : lexicon.text name = .ok text)
      (span first : Span) : Told lexicon 307 ⟨name, Report.duplicate text span first⟩

theorem Misuse.Told.code {lexicon : Lexicon} {number : Nat} {misuse : Misuse}
    (h : misuse.Told lexicon number) : misuse.report.code = Report.code number := by
  cases h <;> rfl

theorem Misuse.Told.exists_text {lexicon : Lexicon} {number : Nat} {misuse : Misuse}
    (h : misuse.Told lexicon number) : ∃ text, lexicon.text misuse.name = .ok text := by
  cases h <;> exact ⟨_, ‹_›⟩

namespace TopLevel

variable {lexicon : Lexicon}

def table (ops : List Op) : TopLevel where
  symbols := (ops.filterMap fun op => op.kind.declared?.map (·, op.span)).reverse
  classes := (ops.filterMap fun op =>
    op.kind.definedClass?.map fun head => (head.name, head)).reverse

def namesOf (ops : List Op) : List Name := ops.filterMap (·.kind.declared?)

theorem keys_symbols (ops : List Op) :
    (table ops).symbols.map (·.1) = (namesOf ops).reverse := by
  rw [table, List.map_reverse, List.map_filterMap, namesOf]
  congr 2
  funext op
  cases op.kind.declared? <;> rfl

theorem lookup_symbols_eq_none {ops : List Op} {name : Name} :
    (table ops).symbols.lookup name = none ↔ name ∉ namesOf ops := by
  rw [← List.mem_reverse, ← keys_symbols, List.lookup_eq_none_iff]
  simp only [bne_iff_ne, List.mem_map, not_exists, not_and]
  exact forall₂_congr fun entry _ => ne_comm

theorem declares_table {ops : List Op} {name : Name} :
    (table ops).declares name = true ↔ name ∈ namesOf ops := by
  rw [declares, Option.isSome_iff_ne_none, ne_eq, lookup_symbols_eq_none, not_not]

theorem keys_classes_sublist (ops : List Op) :
    (ops.filterMap fun op => op.kind.definedClass?.map (·.name)).Sublist (namesOf ops) := by
  induction ops with
  | nil => exact .slnil
  | cons op rest ih =>
    cases hclass : op.kind.definedClass? with
    | some head =>
      simpa [namesOf, hclass, OpKind.declared?_of_definedClass? hclass] using ih
    | none =>
      cases hname : op.kind.declared? with
      | none => simpa [namesOf, hclass, hname] using ih
      | some name => simpa [namesOf, hclass, hname] using ih.cons name

theorem lookup_classes {ops : List Op} (nodup : (namesOf ops).Nodup) {name : Name}
    {head : ClassHead} :
    (table ops).classes.lookup name = some head ↔
      head ∈ ops.filterMap (·.kind.definedClass?) ∧ head.name = name := by
  have keys : ((table ops).classes.map (·.1)).Nodup := by
    rw [table, List.map_reverse, List.nodup_reverse, List.map_filterMap]
    simpa [Function.comp_def] using nodup.sublist (keys_classes_sublist ops)
  rw [lookup_eq_some_iff_mem keys]
  simp only [table, List.mem_reverse, List.mem_filterMap, Option.map_eq_some_iff, Prod.mk.injEq]
  constructor
  · rintro ⟨op, hop, found, hclass, rfl, rfl⟩
    exact ⟨⟨op, hop, hclass⟩, rfl⟩
  · rintro ⟨⟨op, hop, hclass⟩, rfl⟩
    exact ⟨op, hop, head, hclass, rfl, rfl⟩

theorem add_table (lexicon : Lexicon) (seen : List Op) (op : Op) :
    (∀ name, op.kind.declared? = some name → name ∉ namesOf seen) ∧
        add lexicon (table seen) op = .ok (none, table (seen ++ [op])) ∨
      ∃ name first, op.kind.declared? = some name ∧ name ∈ namesOf seen ∧
        add lexicon (table seen) op = lexicon.text name >>= fun text =>
          .ok (some ⟨name, Report.duplicate text op.span first⟩, table seen) := by
  cases hdeclared : op.kind.declared? with
  | none =>
    have hclass : op.kind.definedClass? = none := by
      cases hkind : op.kind <;> simp_all [OpKind.declared?, OpKind.definedClass?]
    left
    simp [add, table, hdeclared, hclass]
  | some name =>
    cases hlookup : (table seen).symbols.lookup name with
    | none =>
      left
      refine ⟨fun other hother => ?_, ?_⟩
      · cases hother
        exact lookup_symbols_eq_none.mp hlookup
      · simp only [add, hdeclared, hlookup]
        cases hkind : op.kind <;> rw [hkind] at hdeclared <;> cases hdeclared <;>
          simp [table, hkind, OpKind.declared?, OpKind.definedClass?]
    | some first =>
      right
      have used : name ∈ namesOf seen := declares_table.mp (by rw [declares, hlookup]; rfl)
      exact ⟨name, first, rfl, used, by simp only [add, hdeclared, hlookup]; rfl⟩

theorem nodup_namesOf_concat {seen : List Op} (nodup : (namesOf seen).Nodup) {op : Op}
    (fresh : ∀ name, op.kind.declared? = some name → name ∉ namesOf seen) :
    (namesOf (seen ++ [op])).Nodup := by
  cases hdeclared : op.kind.declared? with
  | none => simpa [namesOf, hdeclared] using nodup
  | some name =>
    have distinct := fresh name hdeclared
    simp only [namesOf, List.filterMap_append, List.filterMap_cons, hdeclared, List.filterMap_nil]
    exact nodup.append (List.nodup_singleton name) (List.disjoint_singleton.mpr distinct)

theorem not_nodup_namesOf {seen rest : List Op} {op : Op} {name : Name}
    (declared : op.kind.declared? = some name) (used : name ∈ namesOf seen) :
    ¬ (namesOf (seen ++ op :: rest)).Nodup := by
  rw [namesOf, List.filterMap_append, List.filterMap_cons, declared]
  intro distinct
  exact List.disjoint_of_nodup_append distinct used List.mem_cons_self

theorem mapAccumM_add_of_nodup (lexicon : Lexicon) (ops seen : List Op)
    (nodup : (namesOf (seen ++ ops)).Nodup) :
    mapAccumM (add lexicon) (table seen) ops =
      .ok (List.replicate ops.length none, table (seen ++ ops)) := by
  induction ops generalizing seen with
  | nil => simp [mapAccumM]
  | cons op rest ih =>
    rcases add_table lexicon seen op with ⟨-, hadd⟩ | ⟨name, first, hdeclared, used, -⟩
    · have next := ih (seen ++ [op]) (by rwa [List.append_assoc])
      rw [List.append_assoc, List.singleton_append] at next
      exact mapAccumM_cons_eq_ok.mpr ⟨none, _, _, hadd, next, rfl⟩
    · exact absurd nodup (not_nodup_namesOf hdeclared used)

theorem mapAccumM_add_ok {ops seen : List Op} {found : List (Option Misuse)} {t : TopLevel}
    (nodup : (namesOf seen).Nodup) (h : mapAccumM (add lexicon) (table seen) ops = .ok (found, t)) :
    (found.filterMap id = [] → (namesOf (seen ++ ops)).Nodup) ∧
      ∀ misuse ∈ found.filterMap id, misuse.Told lexicon 307 := by
  induction ops generalizing seen found with
  | nil =>
    cases h
    simpa using nodup
  | cons op rest ih =>
    obtain ⟨one, next, others, hone, hothers, rfl⟩ := mapAccumM_cons_eq_ok.mp h
    rcases add_table lexicon seen op with ⟨fresh, hadd⟩ | ⟨name, first, -, -, hadd⟩
    · rw [hadd] at hone
      cases hone
      obtain ⟨clean, told⟩ := ih (nodup_namesOf_concat nodup fresh) hothers
      rw [List.append_assoc] at clean
      exact ⟨clean, told⟩
    · rw [hadd] at hone
      obtain ⟨text, htext, hone⟩ := bind_eq_ok.mp hone
      cases hone
      obtain ⟨-, told⟩ := ih nodup hothers
      exact ⟨fun nothing => absurd nothing (List.cons_ne_nil _ _),
        List.forall_mem_cons.mpr ⟨.duplicate htext op.span first, told⟩⟩

theorem ofOps_of_nodup (lexicon : Lexicon) {ops : List Op} (nodup : (namesOf ops).Nodup) :
    ofOps lexicon ops = .ok ([], table ops) := by
  have run := mapAccumM_add_of_nodup lexicon ops [] nodup
  rw [ofOps, show empty = table [] from rfl, run, ok_bind]
  simp [pure, Except.pure]

theorem ofOps_ok {ops : List Op} {found : List Misuse} {t : TopLevel}
    (h : ofOps lexicon ops = .ok (found, t)) :
    (found = [] ↔ (namesOf ops).Nodup) ∧ ((namesOf ops).Nodup → t = table ops) ∧
      ∀ misuse ∈ found, misuse.Told lexicon 307 := by
  have distinct : (namesOf ops).Nodup → found = [] ∧ t = table ops := by
    intro nodup
    rw [ofOps_of_nodup lexicon nodup] at h
    cases h
    exact ⟨rfl, rfl⟩
  obtain ⟨⟨misuses, t'⟩, hmisuses, h⟩ := bind_eq_ok.mp h
  cases h
  have start : (namesOf []).Nodup := List.nodup_nil
  obtain ⟨clean, told⟩ := mapAccumM_add_ok start hmisuses
  exact ⟨⟨clean, fun nodup => (distinct nodup).1⟩, fun nodup => (distinct nodup).2, told⟩

end TopLevel

theorem mem_distinct {names : List Name} {name : Name} : name ∈ distinct names ↔ name ∈ names := by
  induction names with
  | nil => rfl
  | cons first rest ih =>
    by_cases same : name = first
    · simp [distinct, same]
    · simp [distinct, ih, same]

theorem distinct_eq_nil {names : List Name} : distinct names = [] ↔ names = [] := by
  cases names <;> simp [distinct]

namespace Scope

variable {s : Scope} {n : Node}

theorem checkActuals_eq_none {head : ClassHead} {actuals : List TyId} :
    s.checkActuals head actuals = .ok none ↔ head.params.map (·.ty) = actuals := by
  unfold checkActuals
  by_cases count : head.params.length = actuals.length
  · rw [if_neg (not_not.mpr count)]
    have agree : ((head.params.zip actuals).zipIdx.find? fun e => e.1.1.ty ≠ e.1.2) = none ↔
        head.params.map (·.ty) = actuals := by
      rw [← List.forall₂_eq_eq_eq, List.forall₂_map_left_iff, List.forall₂_iff_zip,
        List.find?_eq_none]
      simp only [count, true_and, ne_eq, decide_not, Bool.not_eq_true', decide_eq_false_iff_not,
        not_not, Prod.forall]
      constructor
      · intro each formal actual hmem
        obtain ⟨i, hi⟩ := List.getElem?_of_mem hmem
        exact each formal actual i (List.mem_zipIdx_iff_getElem?.mpr hi)
      · intro each formal actual i hmem
        exact each (List.mem_of_getElem? (List.mem_zipIdx_iff_getElem?.mp hmem))
    cases found : (head.params.zip actuals).zipIdx.find? fun e => e.1.1.ty ≠ e.1.2 with
    | none => exact iff_of_true rfl (agree.mp found)
    | some differing =>
      refine iff_of_false (fun h => ?_) fun same => by rw [agree.mpr same] at found; cases found
      obtain ⟨_, -, h⟩ := bind_eq_ok.mp h
      obtain ⟨_, -, h⟩ := bind_eq_ok.mp h
      cases h
  · rw [if_pos count]
    refine iff_of_false (fun h => by cases h) fun same => count ?_
    rw [← same, List.length_map]

theorem checkResults_eq_none {ofClass : Name} (text : String) {results : List TyId} :
    s.checkResults ofClass text results = .ok none ↔
      ∃ result, results = [result] ∧ s.types.lookup (.instanceOf ofClass) = some result := by
  have objects : ∀ results : List TyId, (do
      let produced ← results.mapM (s.types.display s.lexicon)
      let produced := ", ".intercalate produced
      return some s!"must produce `class<@{text}>` but produces `{produced}`") ≠
        (.ok none : Checked (Option String)) := by
    intro results h
    obtain ⟨_, -, h⟩ := bind_eq_ok.mp h
    cases h
  simp only [checkResults]
  split
  · next result =>
    split
    · next expected => exact iff_of_true rfl ⟨result, rfl, expected.symm⟩
    · next other =>
      refine iff_of_false (objects [result]) ?_
      rintro ⟨found, same, expected⟩
      cases same
      exact other expected.symm
  · next several =>
    refine iff_of_false (objects results) ?_
    rintro ⟨result, same, -⟩
    exact several result same

theorem checkObject_eq_nil {ofClass : Name} {actuals : List TyId} :
    s.checkObject n ofClass actuals = .ok [] ↔ (∃ text, s.lexicon.text ofClass = .ok text) ∧
      ∃ head, s.topLevel.classes.lookup ofClass = some head ∧ head.params.map (·.ty) = actuals ∧
        ∃ result, n.results = [result] ∧ s.types.lookup (.instanceOf ofClass) = some result := by
  unfold checkObject
  rw [bind_eq_ok, ← exists_and_right]
  refine exists_congr fun text => and_congr_right fun _ => ?_
  cases s.topLevel.classes.lookup ofClass with
  | none => simp [pure, Except.pure]
  | some head =>
    simp only [bind_eq_ok, Option.some.injEq, exists_eq_left',
      ← checkResults_eq_none (s := s) text, ← checkActuals_eq_none (s := s)]
    constructor
    · rintro ⟨unfit, hunfit, results, hresults, h⟩
      have nothing := Except.ok.inj h
      simp only [List.map_eq_nil_iff, List.append_eq_nil_iff, Option.toList_eq_nil_iff] at nothing
      obtain ⟨rfl, rfl⟩ := nothing
      exact ⟨hunfit, hresults⟩
    · rintro ⟨hunfit, hresults⟩
      exact ⟨none, hunfit, none, hresults, rfl⟩

theorem missingSymbols_eq_nil :
    s.missingSymbols n = [] ↔ ∀ name ∈ n.refs, s.topLevel.declares name = true := by
  simp [missingSymbols, distinct_eq_nil, List.filter_eq_nil_iff]

def unfitting (s : Scope) (n : Node) : Checked (List Misuse) :=
  match n.kind with
  | .object ofClass actuals => s.checkObject n ofClass actuals
  | _ => pure []

theorem check_eq : s.check n = do
    let unfit ← s.unfitting n
    let missing ← s.missingClasses n
    let classes ← missing.mapM (s.undefined "class" n.span)
    let symbols ← (s.missingSymbols n).mapM (s.undefined "symbol" n.span)
    return unfit ++ classes ++ symbols := by
  unfold check unfitting
  cases n.kind <;> rfl

theorem check_eq_ok {found : List Misuse} :
    s.check n = .ok found ↔ ∃ unfit missing classes symbols, s.unfitting n = .ok unfit ∧
      s.missingClasses n = .ok missing ∧
      missing.mapM (s.undefined "class" n.span) = .ok classes ∧
      (s.missingSymbols n).mapM (s.undefined "symbol" n.span) = .ok symbols ∧
      found = unfit ++ classes ++ symbols := by
  simp only [check_eq, bind_eq_ok]
  constructor
  · rintro ⟨unfit, hunfit, missing, hmissing, classes, hclasses, symbols, hsymbols, h⟩
    exact ⟨unfit, missing, classes, symbols, hunfit, hmissing, hclasses, hsymbols,
      (Except.ok.inj h).symm⟩
  · rintro ⟨unfit, missing, classes, symbols, hunfit, hmissing, hclasses, hsymbols, rfl⟩
    exact ⟨unfit, hunfit, missing, hmissing, classes, hclasses, symbols, hsymbols, rfl⟩

theorem mapM_undefined_eq_nil {kind : String} {span : Span} {names : List Name} :
    names.mapM (s.undefined kind span) = .ok [] ↔ names = [] := by
  rw [mapM_eq_ok, List.forall₂_nil_right_iff]

theorem check_eq_nil : s.check n = .ok [] ↔
    s.unfitting n = .ok [] ∧ s.missingClasses n = .ok [] ∧ s.missingSymbols n = [] := by
  rw [check_eq_ok]
  constructor
  · rintro ⟨unfit, missing, classes, symbols, hunfit, hmissing, hclasses, hsymbols, h⟩
    have nothing := h.symm
    simp only [List.append_eq_nil_iff] at nothing
    obtain ⟨⟨rfl, rfl⟩, rfl⟩ := nothing
    obtain rfl := mapM_undefined_eq_nil.mp hclasses
    exact ⟨hunfit, hmissing, mapM_undefined_eq_nil.mp hsymbols⟩
  · rintro ⟨hunfit, hmissing, symbols⟩
    exact ⟨[], [], [], [], hunfit, hmissing, rfl, mapM_undefined_eq_nil.mpr symbols, rfl⟩

theorem check_eq_nil_iff {ops : List Op} (nodup : (TopLevel.namesOf ops).Nodup)
    (htable : s.topLevel = .table ops) :
    s.check n = .ok [] ↔
      n.Fits s.types (ops.filterMap (·.kind.definedClass?)) (TopLevel.namesOf ops) ∧
        ∀ ofClass ∈ n.kind.class?, ∃ text, s.lexicon.text ofClass = .ok text := by
  have classes : ∀ name, s.topLevel.definesClass name = true ↔
      ∃ head ∈ ops.filterMap (·.kind.definedClass?), head.name = name := by
    intro name
    simp only [TopLevel.definesClass, Option.isSome_iff_exists, htable,
      TopLevel.lookup_classes nodup]
  have object : s.unfitting n = .ok [] ↔
      (∀ ofClass ∈ n.kind.class?, ∃ text, s.lexicon.text ofClass = .ok text) ∧
      ∀ ofClass actuals, n.kind = .object ofClass actuals →
        ∃ head ∈ ops.filterMap (·.kind.definedClass?), head.name = ofClass ∧
          head.params.map (·.ty) = actuals ∧ ∃ result, n.results = [result] ∧
            s.types.lookup (.instanceOf ofClass) = some result := by
    unfold unfitting
    cases n.kind with
    | object ofClass actuals =>
      simp [OpKind.class?, checkObject_eq_nil, htable, TopLevel.lookup_classes nodup, and_assoc]
    | _ => simp [OpKind.class?, pure, Except.pure]
  rw [check_eq_nil, object, missingSymbols_eq_nil, htable]
  simp only [TopLevel.declares_table]
  constructor
  · rintro ⟨⟨texts, fits⟩, hmissing, symbols⟩
    obtain ⟨mentioned, hmentioned, hmissing⟩ := bind_eq_ok.mp hmissing
    refine ⟨⟨fits, ⟨mentioned, hmentioned, fun name hname => (classes name).mp ?_⟩, symbols⟩,
      texts⟩
    have nothing := distinct_eq_nil.mp (Except.ok.inj hmissing)
    by_contra undefined
    refine List.filter_eq_nil_iff.mp nothing name hname ?_
    rw [Bool.and_eq_true, Bool.not_eq_true', Bool.not_eq_true']
    refine ⟨by simpa using undefined, ?_⟩
    split
    · next ofClass actuals hkind =>
      -- a missing class of the object itself is left out here, but then the object does not fit
      by_contra reported
      have same : name = ofClass := by simpa using reported
      obtain ⟨head, hhead, hname, -⟩ := fits ofClass actuals hkind
      exact undefined ((classes name).mpr ⟨head, hhead, hname.trans same.symm⟩)
    · rfl
  · rintro ⟨⟨fits, ⟨mentioned, hmentioned, instances⟩, symbols⟩, texts⟩
    refine ⟨⟨texts, fits⟩, bind_eq_ok.mpr ⟨mentioned, hmentioned, ?_⟩, symbols⟩
    refine congrArg Except.ok (distinct_eq_nil.mpr (List.filter_eq_nil_iff.mpr ?_))
    intro name hname
    simp [(classes name).mpr (instances name hname)]

theorem told_of_undefined {kind : String} {span : Span} {names : List Name}
    {found : List Misuse} (h : names.mapM (s.undefined kind span) = .ok found) :
    ∀ misuse ∈ found, misuse.Told s.lexicon 305 := by
  intro misuse hmisuse
  obtain ⟨name, -, h⟩ := forall₂_exists_left (mapM_eq_ok.mp h) hmisuse
  obtain ⟨text, htext, h⟩ := bind_eq_ok.mp h
  cases h
  exact .undefined kind htext span

theorem told_of_unfitting {found : List Misuse} (h : s.unfitting n = .ok found) :
    ∀ misuse ∈ found, misuse.Told s.lexicon 305 ∨ misuse.Told s.lexicon 306 := by
  intro misuse hmisuse
  unfold unfitting at h
  split at h
  · obtain ⟨text, htext, h⟩ := bind_eq_ok.mp h
    split at h
    · cases h
      rw [List.mem_singleton.mp hmisuse]
      exact .inl (.undefined "class" htext n.span)
    · obtain ⟨_, -, h⟩ := bind_eq_ok.mp h
      obtain ⟨_, -, h⟩ := bind_eq_ok.mp h
      cases h
      obtain ⟨detail, -, rfl⟩ := List.mem_map.mp hmisuse
      exact .inr (.unfit htext detail n.span)
  · cases h
    cases hmisuse

theorem told_of_check {found : List Misuse} (h : s.check n = .ok found) :
    ∀ misuse ∈ found, misuse.Told s.lexicon 305 ∨ misuse.Told s.lexicon 306 := by
  obtain ⟨unfit, missing, classes, symbols, hunfit, -, hclasses, hsymbols, rfl⟩ := check_eq_ok.mp h
  intro misuse hmisuse
  rcases List.mem_append.mp hmisuse with hmisuse | hmisuse
  · rcases List.mem_append.mp hmisuse with hmisuse | hmisuse
    · exact told_of_unfitting hunfit misuse hmisuse
    · exact .inl (told_of_undefined hclasses misuse hmisuse)
  · exact .inl (told_of_undefined hsymbols misuse hmisuse)

end Scope

theorem Placed.nodes_tree (p : Placed) : p.tree.nodes = p.entries.map (·.2.toNode) := by
  induction p with
  | node id root regions ih =>
    rw [tree_node, Tree.nodes_node, entries_node, List.map_cons, ← List.map_flatten,
      List.flatMap_map, List.map_flatMap]
    refine congrArg _ (List.flatMap_congr fun p hp => ?_)
    obtain ⟨region, hregion, hmem⟩ := List.mem_flatten.mp hp
    exact ih region hregion p hmem

namespace LinkUnit

variable {u : LinkUnit} {ps : List Placed} {types : TyStore} {lexicon : Lexicon}

def declaredNames (u : LinkUnit) : List Name := u.forest.filterMap (·.root.kind.declared?)

def definedClasses (u : LinkUnit) : List ClassHead := u.forest.filterMap (·.root.kind.definedClass?)

theorem topLevel_eq (h : u.Unfolds ps) : u.topLevel = .ok (ps.map fun p => (p.id, p.op)) := by
  unfold topLevel
  rw [← h.body, mapM_eq_ok, List.forall₂_map_left_iff, List.forall₂_map_right_iff,
    List.forall₂_same]
  intro p hp
  rw [op_eq_ok_iff.mpr (h.held hp)]
  rfl

theorem filterMap_forest {α : Type} (h : u.Unfolds ps) (f : OpKind → Option α) :
    u.forest.filterMap (f ·.root.kind) = (ps.map (·.op)).filterMap (f ·.kind) := by
  rw [forest_eq h, List.filterMap_map, List.filterMap_map]
  refine List.filterMap_congr fun p _ => ?_
  cases p
  rfl

theorem misuses_eq_ok {found : List Misuse} (h : u.Unfolds ps) :
    u.misuses types lexicon = .ok found ↔
      ∃ duplicates t each, TopLevel.ofOps lexicon (ps.map (·.op)) = .ok (duplicates, t) ∧
        List.Forall₂ (fun (e : OpId × Op) misuses =>
          (Scope.mk t types lexicon).check e.2.toNode = .ok misuses)
        (ps.flatMap Placed.entries) each ∧
        found = duplicates ++ each.flatten := by
  unfold misuses
  rw [topLevel_eq h, ok_bind]
  simp only [List.map_map]
  rw [bind_eq_ok, Prod.exists]
  refine exists_congr fun duplicates => exists_congr fun t => ?_
  rw [exists_and_left]
  refine and_congr_right fun _ => ?_
  rw [fold_eq h]
  exact foldlM_append_eq_ok

/-- Nothing is found wrong exactly if the names at top level differ, every operation fits, and the
classes of objects have texts. -/
theorem misuses_eq_nil_iff_text (forest : u.IsForest) :
    u.misuses types lexicon = .ok [] ↔ u.declaredNames.Nodup ∧
      ∀ t ∈ u.forest, ∀ n ∈ t.nodes, n.Fits types u.definedClasses u.declaredNames ∧
        ∀ ofClass ∈ n.kind.class?, ∃ text, lexicon.text ofClass = .ok text := by
  obtain ⟨ps, hps⟩ := isForest_iff.mp forest
  have names : u.declaredNames = TopLevel.namesOf (ps.map (·.op)) := filterMap_forest hps _
  have classes : u.definedClasses = (ps.map (·.op)).filterMap (·.kind.definedClass?) :=
    filterMap_forest hps _
  have nodes : ∀ P : Node → Prop, (∀ t ∈ u.forest, ∀ n ∈ t.nodes, P n) ↔
      ∀ e ∈ ps.flatMap Placed.entries, P e.2.toNode := by
    intro P
    simp only [forest_eq hps, List.forall_mem_map, Placed.nodes_tree, List.forall_mem_flatMap]
  rw [misuses_eq_ok hps, nodes, names, classes]
  constructor
  · rintro ⟨duplicates, t, each, hops, heach, h⟩
    obtain ⟨distinct, tabled, -⟩ := TopLevel.ofOps_ok hops
    obtain ⟨none_, nothing⟩ := List.append_eq_nil_iff.mp h.symm
    have nodup := distinct.mp none_
    refine ⟨nodup, fun e he => ?_⟩
    obtain ⟨found, hfound, hcheck⟩ := forall₂_exists_right heach he
    rw [List.flatten_eq_nil_iff.mp nothing found hfound] at hcheck
    exact (Scope.check_eq_nil_iff nodup (tabled nodup)).mp hcheck
  · rintro ⟨nodup, fits⟩
    refine ⟨[], _, (ps.flatMap Placed.entries).map fun _ => [],
      TopLevel.ofOps_of_nodup lexicon nodup, ?_, by simp⟩
    rw [List.forall₂_map_right_iff, List.forall₂_same]
    exact fun e he => (Scope.check_eq_nil_iff nodup rfl).mpr (fits e he)

theorem mem_declaredNames {name : Name} :
    name ∈ u.declaredNames ↔ ∃ t ∈ u.forest, t.root.kind.declared? = some name :=
  List.mem_filterMap

theorem mem_definedClasses {head : ClassHead} :
    head ∈ u.definedClasses ↔ ∃ t ∈ u.forest, t.root.kind = .classDef head := by
  simp [definedClasses, OpKind.definedClass?_eq_some]

theorem mem_declaredNames_of_class {head : ClassHead} (h : head ∈ u.definedClasses) :
    head.name ∈ u.declaredNames := by
  obtain ⟨t, ht, hkind⟩ := mem_definedClasses.mp h
  exact mem_declaredNames.mpr ⟨t, ht, by rw [hkind]; rfl⟩

theorem misuses_eq_nil_iff (forest : u.IsForest)
    (named : ∀ name ∈ u.declaredNames, name.index < lexicon.size) :
    u.misuses types lexicon = .ok [] ↔ u.declaredNames.Nodup ∧
      ∀ t ∈ u.forest, ∀ n ∈ t.nodes, n.Fits types u.definedClasses u.declaredNames := by
  rw [misuses_eq_nil_iff_text forest]
  refine and_congr_right fun _ => ⟨fun h t ht n hn => (h t ht n hn).1, fun fits t ht n hn => ?_⟩
  refine ⟨fits t ht n hn, fun ofClass hclass => ?_⟩
  have object : ∃ actuals, n.kind = .object ofClass actuals := by
    cases hkind : n.kind with
    | object found actuals =>
      rw [hkind] at hclass
      cases hclass
      exact ⟨actuals, rfl⟩
    | _ => rw [hkind] at hclass; cases hclass
  obtain ⟨actuals, hkind⟩ := object
  obtain ⟨head, hhead, rfl, -⟩ := (fits t ht n hn).object ofClass actuals hkind
  exact Lexicon.exists_text (named head.name (mem_declaredNames_of_class hhead))

theorem fits_of_misuses (forest : u.IsForest) (h : u.misuses types lexicon = .ok []) :
    u.declaredNames.Nodup ∧
      ∀ t ∈ u.forest, ∀ n ∈ t.nodes, n.Fits types u.definedClasses u.declaredNames := by
  obtain ⟨nodup, each⟩ := (misuses_eq_nil_iff_text forest).mp h
  exact ⟨nodup, fun t ht n hn => (each t ht n hn).1⟩

/-- A name that is declared twice is reported as such, and only then is there such a report. -/
theorem duplicate_iff (forest : u.IsForest) {found : List Misuse}
    (h : u.misuses types lexicon = .ok found) :
    (∃ misuse ∈ found, misuse.report.code = Report.code 307) ↔ ¬ u.declaredNames.Nodup := by
  obtain ⟨ps, hps⟩ := isForest_iff.mp forest
  have names : u.declaredNames = TopLevel.namesOf (ps.map (·.op)) := filterMap_forest hps _
  obtain ⟨duplicates, t, each, hops, heach, rfl⟩ := (misuses_eq_ok hps).mp h
  obtain ⟨distinct, -, told⟩ := TopLevel.ofOps_ok hops
  rw [names, ← distinct]
  constructor
  · rintro ⟨misuse, hmisuse, code⟩ none_
    rw [none_, List.nil_append] at hmisuse
    obtain ⟨misuses, hmisuses, hmem⟩ := List.mem_flatten.mp hmisuse
    obtain ⟨e, -, hcheck⟩ := forall₂_exists_left heach hmisuses
    rcases Scope.told_of_check hcheck misuse hmem with use | use
    · exact absurd (use.code.symm.trans code) (by decide)
    · exact absurd (use.code.symm.trans code) (by decide)
  · intro some_
    obtain ⟨misuse, hmisuse⟩ := List.exists_mem_of_ne_nil _ some_
    exact ⟨misuse, List.mem_append_left _ hmisuse, (told misuse hmisuse).code⟩

theorem told_of_misuses (forest : u.IsForest) {found : List Misuse}
    (h : u.misuses types lexicon = .ok found) :
    ∀ misuse ∈ found, ∃ number, (305 ≤ number ∧ number ≤ 307) ∧ misuse.Told lexicon number := by
  obtain ⟨ps, hps⟩ := isForest_iff.mp forest
  obtain ⟨duplicates, t, each, hops, heach, rfl⟩ := (misuses_eq_ok hps).mp h
  obtain ⟨-, -, told⟩ := TopLevel.ofOps_ok hops
  intro misuse hmisuse
  rcases List.mem_append.mp hmisuse with hmisuse | hmisuse
  · exact ⟨307, by omega, told misuse hmisuse⟩
  · obtain ⟨misuses, hmisuses, hmem⟩ := List.mem_flatten.mp hmisuse
    obtain ⟨e, -, hcheck⟩ := forall₂_exists_left heach hmisuses
    rcases Scope.told_of_check hcheck misuse hmem with use | use
    · exact ⟨305, by omega, use⟩
    · exact ⟨306, by omega, use⟩

theorem declared_of_misuses (forest : u.IsForest) {types : TyStore} {lexicon : Lexicon}
    (h : u.misuses types lexicon = .ok []) {t : Tree} (ht : t ∈ u.forest) {n : Node}
    (hn : n ∈ t.nodes) {names : List Name} (hnames : n.mentions types = .ok names) {name : Name}
    (hname : name ∈ names) : ∃ t' ∈ u.forest, t'.root.kind.declared? = some name := by
  have fits := (fits_of_misuses forest h).2 t ht n hn
  refine mem_declaredNames.mp ?_
  obtain ⟨classes, hclasses, hnames⟩ := bind_eq_ok.mp hnames
  cases hnames
  rcases List.mem_append.mp hname with hname | href
  · rcases List.mem_append.mp hname with hclass | hmentioned
    · cases hkind : n.kind with
      | object ofClass actuals =>
        obtain ⟨head, hhead, rfl, -⟩ := fits.object ofClass actuals hkind
        have same : name = head.name := by simpa [hkind, OpKind.class?, eq_comm] using hclass
        exact same ▸ mem_declaredNames_of_class hhead
      | _ => simp [hkind, OpKind.class?] at hclass
    · obtain ⟨mentioned, hmentioned', instances⟩ := fits.instances
      obtain rfl : classes = mentioned := Except.ok.inj (hclasses.symm.trans hmentioned')
      obtain ⟨head, hhead, rfl⟩ := instances name hmentioned
      exact mem_declaredNames_of_class hhead
  · exact fits.symbols name href

end LinkUnit

end Linkage
