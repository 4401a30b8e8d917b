import Linkage.Proofs.Binding
import Linkage.Proofs.Remnants
import Linkage.Proofs.SymbolUses
import Mathlib.Data.List.Count
/-!
The names of a linked unit. Classes and modules are resolved apart, so within either kind the names
come out distinct. Between the kinds nothing tells them apart: a class of one unit and a module of
another that share a name go on sharing it, and only the check finds them.
-/
namespace Linkage

namespace Linking

variable {α β : Type}

def Resolves (x : Linking α) : Prop :=
  ∀ r, x = .error (.rejected r) → ∀ d ∈ r.report, d.code ≠ Report.code 307

theorem Resolves.ok (a : α) : Resolves (.ok a) := fun _ h => by cases h

theorem Resolves.broken (detail : String) : Resolves (Linking.broken detail : Linking α) := by
  rintro _ ⟨⟩ d hd
  cases hd

theorem Resolves.reject {failure : LinkFailure} {report : Diagnostic}
    (h : report.code ≠ Report.code 307) : Resolves (Linking.reject failure report : Linking α) := by
  rintro _ ⟨⟩ d hd
  rwa [List.mem_singleton.mp hd]

theorem Resolves.ofChecked (c : Checked α) : Resolves (Linking.ofChecked c) := by
  cases c <;> rintro _ ⟨⟩

theorem Resolves.bind {x : Linking α} {f : α → Linking β} (hx : x.Resolves)
    (hf : ∀ a, (f a).Resolves) : (x >>= f).Resolves := by
  cases x with
  | error halt =>
    intro r h
    cases h
    exact hx r rfl
  | ok a => exact hf a

theorem Resolves.foldlM {f : β → α → Linking β} (hf : ∀ b a, (f b a).Resolves) (as : List α)
    (b : β) : (as.foldlM f b).Resolves := by
  induction as generalizing b with
  | nil => exact .ok b
  | cons a rest ih => exact (hf b a).bind ih

end Linking

def Diagnostic.heading (d : Diagnostic) : Severity × Code := (d.severity, d.code)

theorem Diagnostic.heading_eq_iff {d : Diagnostic} {severity : Severity} {code : Code} :
    d.heading = (severity, code) ↔ d.severity = severity ∧ d.code = code := Prod.mk_inj

namespace Report

theorem heading_foldl {α : Type} (f : Diagnostic → α → Diagnostic)
    (keeps : ∀ d a, (f d a).heading = d.heading) (as : List α) (d : Diagnostic) :
    (as.foldl f d).heading = d.heading := by
  induction as generalizing d with
  | nil => rfl
  | cons a rest ih => exact (ih (f d a)).trans (keeps d a)

theorem heading_ambiguous (text : String) (first : Span) (others : List (Span × Bool)) :
    (ambiguous text first others).heading = (.error, code 300) :=
  heading_foldl _ (fun _ _ => by rfl) others _

theorem heading_unresolved (space : Space) (text : String) (stubs definitions : List Span) :
    (unresolved space text stubs definitions).heading =
      (.error, code (if definitions.length = 0 then 301 else 302)) := by
  have heading : (unresolved space text stubs definitions).heading =
      (.error, code (if definitions.isEmpty then (301, "there is no definition")
        else (302, "there are multiple definitions")).1) :=
    (heading_foldl _ (fun _ _ => by rfl) definitions _).trans
      (heading_foldl _ (fun _ _ => by rfl) (stubs.drop 1) _)
  rw [heading]
  cases definitions <;> rfl

theorem code_inj {m n : Nat} : Report.code m = Report.code n ↔ m = n := by
  simp [code]

end Report

namespace Court

variable {α : Type} (c : Court)

theorem resolves_op (site : Site) : (c.op site).Resolves := by
  unfold op
  split
  · exact .broken _
  · split
    · exact .broken _
    · exact .ok _

theorem resolves_claimants (space : Space) (text : String)
    (classify : OpKind → Option (Bool × α)) (sites : List Site) :
    (c.claimants space text classify sites).Resolves := by
  refine .foldlM (fun found site => (c.resolves_op site).bind fun op => ?_) sites _
  split
  · exact .ok _
  · exact .ok _
  · exact .broken _

theorem resolves_judgeStubs (space : Space) (text : String)
    (object : α → α → Checked (Option Objection)) (definition : Span × α)
    (stubs : List (Span × α)) : (c.judgeStubs space text object definition stubs).Resolves := by
  induction stubs with
  | nil => exact .ok ()
  | cons stub rest ih =>
    refine (Linking.Resolves.ofChecked _).bind fun objection => ?_
    split
    · exact ih
    · exact .reject (by simp [Report.mismatch, Diagnostic.withSecondary, Diagnostic.error,
        Report.code_inj])
    · refine (Linking.Resolves.ofChecked _).bind fun field => .reject ?_
      simp [Report.uncovered, Diagnostic.withSecondary, Diagnostic.error, Report.code_inj]

theorem resolves_settle (space : Space) (text : String)
    (object : α → α → Checked (Option Objection)) (found : Claimants α) :
    (c.settle space text object found).Resolves := by
  unfold settle
  split
  · exact .ok _
  · split
    · exact (c.resolves_judgeStubs _ _ _ _ _).bind fun _ => .ok _
    · refine .reject ?_
      rw [(Diagnostic.heading_eq_iff.mp (Report.heading_unresolved _ _ _ _)).2]
      split <;> simp [Report.code_inj]

theorem resolves_judge (space : Space) (name : Name) (sites : List Site) :
    (c.judge space name sites).Resolves := by
  cases space with
  | classes =>
    refine (Linking.Resolves.ofChecked _).bind fun text => ?_
    exact (c.resolves_claimants _ _ _ _).bind fun found => c.resolves_settle _ _ _ _
  | modules =>
    refine (Linking.Resolves.ofChecked _).bind fun text => ?_
    refine (c.resolves_claimants _ _ _ _).bind fun found => ?_
    split
    · split
      · refine .reject ?_
        rw [(Diagnostic.heading_eq_iff.mp (Report.heading_ambiguous _ _ _)).2]
        simp [Report.code_inj]
      · exact c.resolves_settle _ _ _ _
    · exact c.resolves_settle _ _ _ _

theorem resolves_tagText (units : List LinkUnit) (lexicon : Lexicon) (unit : Nat) :
    (tagText units lexicon unit).Resolves := by
  unfold tagText
  split
  · exact .broken _
  · split
    · exact .broken _
    · exact .ofChecked _

theorem resolves_nameAll (policy : RenamePolicy) (declared : List Declared) :
    (c.nameAll policy declared).Resolves := by
  refine (Linking.Resolves.ofChecked _).bind fun catalogue => ?_
  refine (Linking.Resolves.foldlM (fun naming entry => ?_) _ _).bind fun naming =>
    .foldlM (fun naming entry => ?_) _ _
  · refine ((c.after naming).resolves_judge .modules entry.1 entry.2).bind fun verdict => ?_
    split
    · exact .foldlM (fun naming site => .ofChecked _) _ _
    · exact .ok _
  · refine ((c.after naming).resolves_judge .classes entry.1 entry.2).bind fun verdict => ?_
    split
    · refine .foldlM (fun naming site => ?_) _ _
      exact (resolves_tagText c.units naming.lexicon site.unit).bind fun tag => .ofChecked _
    · exact .ok _

end Court

theorem nodup_filterMap_of_length {α β : Type} [DecidableEq β] {f : α → Option β} {xs : List α}
    (once : ∀ x ∈ xs, ∀ y, f x = some y → (xs.filter (f · = some y)).length ≤ 1) :
    (xs.filterMap f).Nodup := by
  rw [List.nodup_iff_count_le_one]
  intro y
  have count : (xs.filterMap f).count y = (xs.filter (f · = some y)).length := by
    rw [List.count_filterMap, List.countP_eq_length_filter]
    congr 2
    funext x
    simp [Bool.beq_eq_decide_eq]
  rw [count]
  by_cases found : ∃ x ∈ xs, f x = some y
  · obtain ⟨x, hx, hy⟩ := found
    exact once x hx y hy
  · have nothing : xs.filter (f · = some y) = [] :=
      List.filter_eq_nil_iff.mpr fun x hx hy => found ⟨x, hx, by simpa using hy⟩
    simp [nothing]

/-- A class of one unit and a module of another have a name that both keep. -/
def Design.Clash (policy : RenamePolicy) (d : Design) : Prop :=
  ∃ e ∈ d.definitions, ∃ e' ∈ d.definitions, ∃ name ∈ e.2.root.kind.declared?,
    e.2.declares .classes name = true ∧ e'.2.declares .modules name = true ∧
    e.1 ∉ d.renamed policy .classes name ∧ e'.1 ∉ d.renamed policy .modules name

instance (policy : RenamePolicy) (d : Design) : Decidable (d.Clash policy) :=
  inferInstanceAs (Decidable (∃ e ∈ d.definitions, ∃ e' ∈ d.definitions,
    ∃ name ∈ e.2.root.kind.declared?, e.2.declares .classes name = true ∧
      e'.2.declares .modules name = true ∧ e.1 ∉ d.renamed policy .classes name ∧
      e'.1 ∉ d.renamed policy .modules name))

namespace Phases

variable {options : LinkOptions} {d : Design} {lexicon : Lexicon}

/-- What a link leaves, whatever the units were, are definitions without stubs, under the names of
declarations as often as these were renamed. -/
theorem remnant (p : Phases options d lexicon) {t : Tree}
    (ht : t ∈ (joined p.rewritten.units).forest) :
    t.root.kind.isDefinition = true ∧ t.StubFree ∧ ∃ unit times,
      ∃ name ∈ (p.collected.map (·.declared)).flatMap Catalogue.roll,
        t.root.kind.declared? = some ((p.naming.renames.apply unit)^[times] name) := by
  rw [(joined_forest p.rewritten.units).2] at ht
  obtain ⟨u', hu', ht⟩ := List.mem_flatMap.mp ht
  obtain ⟨unit, hunit⟩ := List.getElem?_of_mem hu'
  obtain ⟨-, same, -, each⟩ := p.rewritten_eq
  have inside : unit < p.collected.length := by
    rw [p.length_collected, ← same]
    exact (List.getElem?_eq_some_iff.mp hunit).1
  have hc := List.getElem?_eq_getElem inside
  have listed := List.getElem_mem inside
  obtain ⟨counts, remap, v, -, hv, -, hrewrite⟩ := each unit _ hc
  obtain rfl : u' = v := Option.some.inj (hunit.symm.trans hv)
  obtain ⟨u, -, hcollect⟩ := forall₂_exists_left (mapM_eq_ok.mp p.collects) listed
  obtain ⟨definition, clean, space, times, declaration, hdeclaration, declared⟩ :=
    LinkUnit.definitions_of_rewrite (LinkUnit.collect_ok hcollect) hrewrite ht
  have rolled : declaration.name ∈ Catalogue.roll p.collected[unit].declared :=
    Catalogue.mem_roll.mpr ⟨space, declaration, hdeclaration, rfl⟩
  exact ⟨definition, clean, unit, times, declaration.name,
    List.mem_flatMap.mpr ⟨_, List.mem_map_of_mem listed, rolled⟩, declared⟩

theorem known_declaredNames (p : Phases options d lexicon) :
    ∀ name ∈ (joined p.rewritten.units).declaredNames, name.index < p.naming.lexicon.size := by
  obtain ⟨-, ⟨pool, hpool, sound⟩, -⟩ := Court.nameAll_ok p.names
  intro name hname
  obtain ⟨t, ht, hdeclared⟩ := LinkUnit.mem_declaredNames.mp hname
  obtain ⟨-, -, unit, times, old, hold, declared⟩ := p.remnant ht
  obtain rfl : (p.naming.renames.apply unit)^[times] old = name :=
    Option.some.inj (declared.symm.trans hdeclared)
  clear hname hdeclared declared
  induction times with
  | zero =>
    obtain ⟨text, htext⟩ := NamePool.known_of_takeAll hpool old hold
    exact Nat.lt_of_lt_of_le (Lexicon.lt_size_of_text htext) sound.lexicon.size
  | succ times ih =>
    rw [Function.iterate_succ_apply']
    exact p.known_apply unit ih

theorem nodup_declarations (p : Phases options d lexicon) (wf : d.WellFormed lexicon)
    (unique : d.UniqueNames) :
    ((joined p.rewritten.units).forest.filterMap (·.root.kind.declaration?)).Nodup := by
  rw [(joined_forest _).2, p.forest_eq wf.forest, List.filterMap_map]
  refine nodup_filterMap_of_length fun e he declaration hdeclaration => ?_
  obtain ⟨space, new⟩ := declaration
  obtain ⟨old, hold, rfl⟩ := p.declares_moved.mp (Tree.declares_iff.mpr hdeclaration)
  obtain ⟨t, ht, -, -⟩ := mem_definitions_of_declares he hold
  obtain ⟨target, only, -⟩ := p.exists_target wf unique ht
  exact (congrArg List.length only).le

theorem mem_declarations (p : Phases options d lexicon) (forest : ∀ u ∈ d.units, u.IsForest)
    {space : Space} {new : Name} :
    (space, new) ∈ (joined p.rewritten.units).forest.filterMap (·.root.kind.declaration?) ↔
      ∃ e ∈ d.definitions, ∃ old, e.2.declares space old = true ∧
        p.naming.renames.apply e.1 old = new := by
  simp only [(joined_forest _).2, p.forest_eq forest, List.mem_filterMap, List.mem_map,
    exists_exists_and_eq_and, ← Tree.declares_iff, p.declares_moved]

/-- The names of both kinds together are distinct unless a class and a module keep the same. -/
theorem nodup_declaredNames_iff (p : Phases options d lexicon) (wf : d.WellFormed lexicon)
    (unique : d.UniqueNames) :
    (joined p.rewritten.units).declaredNames.Nodup ↔ ¬ d.Clash options.policy := by
  have names : (joined p.rewritten.units).declaredNames =
      ((joined p.rewritten.units).forest.filterMap (·.root.kind.declaration?)).map (·.2) := by
    rw [List.map_filterMap]
    exact List.filterMap_congr fun t _ => OpKind.declared?_eq _
  have keeps : ∀ {space name unit t}, (unit, t) ∈ d.declarers space name →
      (p.naming.renames.get? unit name = none ↔
        unit ∉ d.renamed options.policy space name) := by
    intro space name unit t ht
    rw [← p.renamed_of_some wf.forest unique ht, Option.isSome_iff_ne_none, not_not]
  have shared : ∀ new,
      (.classes, new) ∈ (joined p.rewritten.units).forest.filterMap
        (·.root.kind.declaration?) →
      (.modules, new) ∈ (joined p.rewritten.units).forest.filterMap
        (·.root.kind.declaration?) → d.Clash options.policy := by
    intro new hclass hmodule
    obtain ⟨e, he, name, hname, rfl⟩ := (p.mem_declarations wf.forest).mp hclass
    obtain ⟨e', he', name', hname', same⟩ := (p.mem_declarations wf.forest).mp hmodule
    obtain ⟨t, ht, -, -⟩ := mem_definitions_of_declares he hname
    obtain ⟨t', ht', -, -⟩ := mem_definitions_of_declares he' hname'
    obtain ⟨rfl, hunits | ⟨kept', kept⟩⟩ := (p.apply_eq_iff wf ht' ht).mp same
    · -- one unit has no class and module of one name
      have here : e'.1 ∈ (d.declarers .classes name').map (·.1) :=
        List.mem_map.mpr ⟨_, ht, hunits.symm⟩
      cases unique.space_eq here (List.mem_map.mpr ⟨_, ht', rfl⟩)
    · exact ⟨e, he, e', he', name', Tree.declared?_of_declares hname, hname, hname',
        (keeps ht).mp kept, (keeps ht').mp kept'⟩
  rw [names, List.nodup_map_iff_inj_on (p.nodup_declarations wf unique)]
  constructor
  · rintro inj ⟨e, he, e', he', name, -, hname, hname', kept, kept'⟩
    obtain ⟨t, ht, -, -⟩ := mem_definitions_of_declares he hname
    obtain ⟨t', ht', -, -⟩ := mem_definitions_of_declares he' hname'
    have hclass := (p.mem_declarations wf.forest).mpr ⟨e, he, name, hname,
      Renaming.apply_eq_of_none ((keeps ht).mpr kept)⟩
    have hmodule := (p.mem_declarations wf.forest).mpr ⟨e', he', name, hname',
      Renaming.apply_eq_of_none ((keeps ht').mpr kept')⟩
    cases inj _ hclass _ hmodule rfl
  · rintro none_ ⟨space, new⟩ hx ⟨space', new'⟩ hy same
    obtain rfl : new = new' := same
    cases space <;> cases space'
    · rfl
    · exact absurd (shared new hx hy) none_
    · exact absurd (shared new hy hx) none_
    · rfl

theorem isDefinition_of_mem (p : Phases options d lexicon) (forest : ∀ u ∈ d.units, u.IsForest)
    {t : Tree} (ht : t ∈ (joined p.rewritten.units).forest) :
    t.root.kind.isDefinition = true := by
  rw [(joined_forest _).2, p.forest_eq forest] at ht
  obtain ⟨⟨unit, t⟩, he, rfl⟩ := List.mem_map.mp ht
  obtain ⟨_, _, t', _, definition, rfl⟩ := Design.mem_definitions.mp he
  rw [moved, Tree.root_mapNodes, Node.isDefinition_substitute, Tree.root_withoutStubs]
  exact definition

end Phases

/-- With the check on, a duplicate is reported exactly if there is one in the unit. -/
theorem duplicate_of_finish {verify : Bool} {d : Design} {count : Nat → Summary} {lexicon : Lexicon}
    {log : Log} {linked : Linked} (h : finish verify d count lexicon log = .ok linked) :
    ∃ report, linked.log = log.emitAll report ∧
      ((∃ m ∈ report, m.code = Report.code 307) ↔
        verify = true ∧ ¬ (joined d.units).declaredNames.Nodup) := by
  obtain ⟨-, ⟨checked, rfl⟩ | ⟨rfl, first, others, text, hmisuses, -, rfl⟩⟩ := finish_cases h
  · refine ⟨[], rfl, iff_of_false (by simp) ?_⟩
    rintro ⟨verified, repeated⟩
    have duplicates := LinkUnit.duplicate_iff (joined_forest _).1 (checked verified)
    simpa using duplicates.mpr repeated
  · have duplicates := LinkUnit.duplicate_iff (joined_forest _).1 hmisuses
    exact ⟨(first :: others).map (·.report), rfl, by simpa using duplicates⟩

/-- Without the check, the names of the linked unit are distinct within each kind, and a class has
the name of a module exactly if two units define them under that name and neither is renamed. This
is what the check reports as a duplicate, if it comes to be run. -/
theorem linked_names_distinct {pool : WorkerPool} {options : LinkOptions} {d : Design}
    {lexicon : Lexicon} {log : Log} {linked : Linked} (wf : d.WellFormed lexicon)
    (unique : d.UniqueNames)
    (h : link pool options d lexicon log = .ok linked) :
    (∀ summary, linked.result = .ok summary → ∃ merged, linked.design.units = [merged] ∧
      (∀ t ∈ merged.forest, t.root.kind.isDefinition = true) ∧
      (merged.forest.filterMap (·.root.kind.declaration?)).Nodup ∧
      ((merged.forest.filterMap (·.root.kind.declared?)).Nodup ↔ ¬ d.Clash options.policy)) ∧
    ∃ report, linked.log = log.emitAll report ∧
      ((∃ m ∈ report, m.code = Report.code 307) ↔
        pool.Starts options.threads ∧ options.verify = true ∧
          (∃ naming, d.naming options lexicon = .ok naming) ∧ d.Clash options.policy) := by
  constructor
  · intro summary success
    obtain ⟨p, hdesign, -, -, -⟩ := link_phases h success
    exact ⟨joined p.rewritten.units, by rw [hdesign],
      fun t ht => p.isDefinition_of_mem wf.forest ht, p.nodup_declarations wf unique,
      p.nodup_declaredNames_iff wf unique⟩
  · rcases pool.starts_or options.threads with starts | ⟨reason, stalled⟩
    · rw [link_of_starts starts] at h
      rcases linkUnits_cases h with ⟨r, rejected, -, hlog⟩ | ⟨p, hfinish⟩
      · -- resolution stopped the link, and its reports have codes of their own
        refine ⟨r.report, hlog, iff_of_false ?_ ?_⟩
        · rintro ⟨m, hm, code⟩
          have resolves : Linking.Resolves (d.naming options lexicon) :=
            (Linking.Resolves.ofChecked _).bind fun collected => Court.resolves_nameAll _ _ _
          exact resolves r rejected m hm code
        · rintro ⟨-, -, ⟨naming, named⟩, -⟩
          rw [rejected] at named
          cases named
      · obtain ⟨report, hlog, duplicates⟩ := duplicate_of_finish hfinish
        refine ⟨report, hlog, duplicates.trans ?_⟩
        rw [p.nodup_declaredNames_iff wf unique, not_not]
        exact ⟨fun ⟨verify, clash⟩ => ⟨starts, verify, ⟨p.naming, p.naming_eq⟩, clash⟩,
          fun ⟨_, verify, _, clash⟩ => ⟨verify, clash⟩⟩
    · -- nothing is linked without workers
      rw [link_of_not_started stalled] at h
      cases h
      refine ⟨[], rfl, iff_of_false (by simp) ?_⟩
      rintro ⟨starts, -⟩
      rw [WorkerPool.Starts, stalled] at starts
      cases starts

/-- The two units of the same class and module keep nothing in common across the kinds, so the five
names of the linked unit differ. -/
theorem linked_names_distinct_mux :
    ∃ linked summary merged, link .granted .standard muxDesign muxNames .empty = .ok linked ∧
      linked.result = .ok summary ∧ muxDesign.UniqueNames ∧ linked.design.units = [merged] ∧
      (merged.forest.filterMap (·.root.kind.declared?)).Nodup := by
  obtain ⟨linked, summary, h, success⟩ := Design.links_iff.mp muxDesign_links
  have unique : muxDesign.UniqueNames := by decide
  obtain ⟨merged, hmerged, -, -, distinct⟩ :=
    (linked_names_distinct muxDesign_wellFormed unique h).1 summary success
  exact ⟨linked, summary, merged, h, success, unique, hmerged, distinct.mpr (by decide)⟩

def sharedNames : Lexicon := ⟨#["mux2"], by decide⟩

def sharedDesign : Design where
  types := ⟨#[]⟩
  units :=
    [muxUnit [muxOp (.classDef ⟨⟨0⟩, [], []⟩) [] []] [⟨0⟩],
    muxUnit [muxOp (.moduleDef .local ⟨⟨0⟩, []⟩) [] []] [⟨0⟩]]

theorem sharedDesign_wellFormed : sharedDesign.WellFormed sharedNames where
  forest := by decide
  typed := by decide
  closed := TyStore.Ordered.closed (by decide)
  acyclic := TyStore.Ordered.acyclic (by decide)
  named := by decide

/-- The class and the module both keep the name. With the check on it is reported. -/
theorem linked_names_shared :
    sharedDesign.WellFormed sharedNames ∧ sharedDesign.UniqueNames ∧
    (∃ linked merged, link .granted { LinkOptions.standard with verify := false } sharedDesign
        sharedNames .empty = .ok linked ∧ linked.result.isOk = true ∧
      linked.design.units = [merged] ∧
      ¬ (merged.forest.filterMap (·.root.kind.declared?)).Nodup) ∧
    ∃ linked, link .granted .standard sharedDesign sharedNames .empty = .ok linked ∧
      linked.log.entries.map (·.code) = [Report.code 307] := by
  have unchecked : (link .granted { LinkOptions.standard with verify := false } sharedDesign
      sharedNames .empty).toOption.map (fun linked => (linked.result.isOk,
        linked.design.units.map fun u => u.forest.filterMap (·.root.kind.declared?))) =
      some (true, [[⟨0⟩, ⟨0⟩]]) := by
    decide +kernel
  have checked : (link .granted .standard sharedDesign sharedNames .empty).toOption.map
      (fun linked => linked.log.entries.map (·.code)) = some [Report.code 307] := by
    decide +kernel
  obtain ⟨linked, h, heq⟩ := Option.map_eq_some_iff.mp unchecked
  obtain ⟨success, hunits⟩ := Prod.mk.inj heq
  obtain ⟨merged, hmerged, hnames⟩ := List.map_eq_singleton_iff.mp hunits
  obtain ⟨linked', h', reported⟩ := Option.map_eq_some_iff.mp checked
  refine ⟨sharedDesign_wellFormed, by decide, ⟨linked, merged, toOption_eq_some.mp h, success,
    hmerged, ?_⟩, linked', toOption_eq_some.mp h', reported⟩
  rw [hnames]
  decide

end Linkage
