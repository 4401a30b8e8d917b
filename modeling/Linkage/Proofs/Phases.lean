import Linkage.Proofs.Mentions
import Linkage.Proofs.Passes
import Linkage.Proofs.Planting
import Linkage.Proofs.Verdicts
/-!
A link as its phases. A design is well-formed if its units are forests, its types are finite and
its names are known. On such a design every unit is collected and rewritten for itself, and a link
that succeeds is the merger of what is left of the units.
-/
namespace Linkage

/-- What the inputs of a link are expected to satisfy. -/
structure Design.WellFormed (d : Design) (lexicon : Lexicon) : Prop where
  forest : ∀ u ∈ d.units, u.IsForest
  typed : ∀ u ∈ d.units, ∀ t ∈ u.forest, ∀ n ∈ t.nodes, ∀ id ∈ n.types, id.index < d.types.size
  closed : d.types.Closed
  acyclic : d.types.Acyclic
  named : ∀ u ∈ d.units, ∀ t ∈ u.forest, ∀ name ∈ t.root.kind.declared?, name.index < lexicon.size

/-- The lexicon has the names that are written out in what is said of declarations: the tags of the
units, the names of parameters, fields and ports, and those of the classes in types. -/
structure Design.Spoken (d : Design) (lexicon : Lexicon) : Prop where
  tags : ∀ u ∈ d.units, ∀ tag ∈ u.tag, tag.index < lexicon.size
  members : ∀ u ∈ d.units, ∀ t ∈ u.forest, ∀ name ∈ t.root.kind.members, name.index < lexicon.size
  classes : ∀ ty ∈ d.types.toList, ∀ name ∈ ty.former.classes, name.index < lexicon.size

/-- All names of the design are of the lexicon, those inside of declarations too. -/
structure Design.Legible (d : Design) (lexicon : Lexicon) : Prop where
  tags : ∀ u ∈ d.units, ∀ tag ∈ u.tag, tag.index < lexicon.size
  words : ∀ u ∈ d.units, ∀ t ∈ u.forest, ∀ n ∈ t.nodes, ∀ name ∈ n.words, name.index < lexicon.size
  classes : ∀ ty ∈ d.types.toList, ∀ name ∈ ty.former.classes, name.index < lexicon.size

theorem Design.Legible.spoken {d : Design} {lexicon : Lexicon} (h : d.Legible lexicon) :
    d.Spoken lexicon where
  tags := h.tags
  members u hu t ht name hname := by
    refine h.words u hu t ht t.root t.root_mem_nodes name ?_
    simp [Node.words, hname]
  classes := h.classes

/-- A substitution leaves the members of an operation as they are and changes its other names. -/
theorem Node.mem_words_substitute {s : Name → Name} {f : TyId → TyId} {n : Node} {name : Name}
    (h : name ∈ (n.substitute s f).words) : name ∈ n.words ∨ ∃ old ∈ n.words, s old = name := by
  have members : (n.substitute s f).kind.members = n.kind.members := by
    obtain ⟨kind, span, attrs, results⟩ := n
    cases kind <;>
      simp [substitute, OpKind.substitute, OpKind.members, ClassHead.substitute,
        ModuleHead.substitute, Function.comp_def]
  rw [words, members, declared?_substitute, class?_substitute, refs_substitute] at h
  simp only [List.mem_append, Option.mem_toList, Option.map_eq_some_iff, List.mem_map] at h
  simp only [words, List.mem_append, Option.mem_toList]
  rcases h with ((⟨old, hold, rfl⟩ | h) | ⟨old, hold, rfl⟩) | ⟨old, hold, rfl⟩
  · exact .inr ⟨old, .inl (.inl (.inl hold)), rfl⟩
  · exact .inl (.inl (.inl (.inr h)))
  · exact .inr ⟨old, .inl (.inr hold), rfl⟩
  · exact .inr ⟨old, .inr hold, rfl⟩

def Design.UniqueNames (d : Design) : Prop :=
  ∀ u ∈ d.units, (u.forest.filterMap (·.root.kind.declared?)).Nodup

instance (d : Design) : Decidable d.UniqueNames :=
  inferInstanceAs (Decidable (∀ u ∈ d.units, (u.forest.filterMap (·.root.kind.declared?)).Nodup))

/-- The definitions at top level, each with the position of its unit and without the stubs in
it. -/
def Design.definitions (d : Design) : List (Nat × Tree) :=
  d.units.zipIdx.flatMap fun (u, unit) =>
    (u.forest.filter (·.root.kind.isDefinition)).map fun t => (unit, t.withoutStubs)

theorem Design.mem_definitions {d : Design} {unit : Nat} {t : Tree} :
    (unit, t) ∈ d.definitions ↔ ∃ u, d.units[unit]? = some u ∧
      ∃ t' ∈ u.forest, t'.root.kind.isDefinition = true ∧ t'.withoutStubs = t := by
  unfold definitions
  rw [List.mem_flatMap]
  constructor
  · rintro ⟨⟨u, unit'⟩, hu, hmem⟩
    obtain ⟨t', ht', heq⟩ := List.mem_map.mp hmem
    obtain ⟨rfl, rfl⟩ := Prod.mk.inj heq
    obtain ⟨hmem, hdefinition⟩ := List.mem_filter.mp ht'
    exact ⟨u, List.mem_zipIdx_iff_getElem?.mp hu, t', hmem, hdefinition, rfl⟩
  · rintro ⟨u, hu, t', hmem, hdefinition, rfl⟩
    exact ⟨(u, unit), List.mem_zipIdx_iff_getElem?.mpr hu,
      List.mem_map.mpr ⟨t', List.mem_filter.mpr ⟨hmem, hdefinition⟩, rfl⟩⟩

def Design.naming (options : LinkOptions) (d : Design) (lexicon : Lexicon) : Linking Naming := do
  let (units, lexicon) := assignTags options.tagStem 0 lexicon d.units
  let collected ← Linking.ofChecked (units.mapM LinkUnit.collect)
  let court : Court := ⟨collected.map (·.unit), d.types, lexicon⟩
  court.nameAll options.policy (collected.map (·.declared))

theorem Design.collects_of_naming {options : LinkOptions} {d : Design} {lexicon : Lexicon}
    {naming : Naming} (h : d.naming options lexicon = .ok naming) :
    ∃ collected, (assignTags options.tagStem 0 lexicon d.units).1.mapM LinkUnit.collect =
        .ok collected ∧
      Court.nameAll ⟨collected.map (·.unit), d.types,
          (assignTags options.tagStem 0 lexicon d.units).2⟩ options.policy
        (collected.map (·.declared)) = .ok naming := by
  unfold Design.naming at h
  cases hcollects : (assignTags options.tagStem 0 lexicon d.units).1.mapM LinkUnit.collect with
  | error fault =>
    simp only [hcollects] at h
    cases h
  | ok collected =>
    simp only [hcollects] at h
    exact ⟨collected, rfl, h⟩

structure Phases (options : LinkOptions) (d : Design) (lexicon : Lexicon) where
  collected : List Collected
  naming : Naming
  remaps : List TyRemap
  counts : List RewriteCounts
  rewritten : Design
  collects : (assignTags options.tagStem 0 lexicon d.units).1.mapM LinkUnit.collect = .ok collected
  names : Court.nameAll ⟨collected.map (·.unit), d.types,
      (assignTags options.tagStem 0 lexicon d.units).2⟩ options.policy
    (collected.map (·.declared)) = .ok naming
  rewrites : Design.rewrite ⟨d.types, collected.map (·.unit)⟩ naming.renames =
    .ok (remaps, counts, rewritten)

namespace Phases

variable {options : LinkOptions} {d : Design} {lexicon : Lexicon}

theorem naming_eq (p : Phases options d lexicon) : d.naming options lexicon = .ok p.naming := by
  unfold Design.naming
  simp only [p.collects]
  exact p.names

def summary (p : Phases options d lexicon) (declarations : Nat) : Summary where
  units := p.rewritten.units.length
  debrisErased := total (·.debris) p.collected
  stubsErased := total (·.stubsErased) p.counts
  renamesApplied := total (·.renamesApplied) p.counts
  declarations := declarations

theorem linkUnits_eq (p : Phases options d lexicon) (log : Log) :
    linkUnits options d lexicon log =
      finish options.verify p.rewritten p.summary p.naming.lexicon log := by
  unfold linkUnits
  simp only [p.collects, ok_bind, p.names, p.rewrites]
  rfl

end Phases

/-- The pool has workers to offer for this number of threads. -/
def WorkerPool.Starts (pool : WorkerPool) (threads : Nat) : Prop := pool.start threads = .ok ()

def WorkerPool.granted : WorkerPool := ⟨fun _ => .ok ()⟩

theorem link_of_starts {pool : WorkerPool} {options : LinkOptions}
    (starts : pool.Starts options.threads) (d : Design) (lexicon : Lexicon) (log : Log) :
    link pool options d lexicon log = linkUnits options d lexicon log := by
  rw [WorkerPool.Starts] at starts
  simp only [link, starts]

theorem link_of_not_started {pool : WorkerPool} {options : LinkOptions} {reason : String}
    (stalled : pool.start options.threads = .error reason) (d : Design) (lexicon : Lexicon)
    (log : Log) : link pool options d lexicon log =
      .ok ⟨.error (.broken s!"failed to start link workers: {reason}"), d, lexicon, log⟩ := by
  simp only [link, stalled]
  rfl

theorem WorkerPool.starts_or (pool : WorkerPool) (threads : Nat) :
    pool.Starts threads ∨ ∃ reason, pool.start threads = .error reason := by
  unfold Starts
  cases pool.start threads with
  | ok _ => exact .inl rfl
  | error reason => exact .inr ⟨reason, rfl⟩

theorem starts_of_link {pool : WorkerPool} {options : LinkOptions} {d : Design} {lexicon : Lexicon}
    {log : Log} {linked : Linked} {summary : Summary}
    (h : link pool options d lexicon log = .ok linked) (success : linked.result = .ok summary) :
    pool.Starts options.threads ∧ linkUnits options d lexicon log = .ok linked := by
  rcases pool.starts_or options.threads with starts | ⟨reason, stalled⟩
  · exact ⟨starts, link_of_starts starts d lexicon log ▸ h⟩
  · rw [link_of_not_started stalled] at h
    cases h
    cases success

/-- A link on which a name was turned down ends there, with its units collected. -/
theorem linkUnits_of_rejected {options : LinkOptions} {d : Design} {lexicon : Lexicon}
    {r : Rejection} (named : d.naming options lexicon = .error (.rejected r)) :
    ∃ collected, (assignTags options.tagStem 0 lexicon d.units).1.mapM LinkUnit.collect =
        .ok collected ∧
      ∀ log, linkUnits options d lexicon log = .ok (r.linked ⟨d.types, collected.map (·.unit)⟩
        (assignTags options.tagStem 0 lexicon d.units).2 log) := by
  unfold Design.naming at named
  cases hcollects : (assignTags options.tagStem 0 lexicon d.units).1.mapM LinkUnit.collect with
  | error fault =>
    simp only [hcollects] at named
    cases named
  | ok collected =>
    simp only [hcollects] at named
    refine ⟨collected, rfl, fun log => ?_⟩
    unfold linkUnits
    simp only [hcollects, ok_bind]
    simp only [show Court.nameAll _ _ _ = _ from named]
    rfl

theorem linkUnits_of_fault {options : LinkOptions} {d : Design} {lexicon : Lexicon}
    {collected : List Collected} {fault : Fault}
    (hcollects : (assignTags options.tagStem 0 lexicon d.units).1.mapM LinkUnit.collect =
      .ok collected) (named : d.naming options lexicon = .error (.fault fault)) (log : Log) :
    linkUnits options d lexicon log = .error fault := by
  unfold Design.naming at named
  simp only [hcollects] at named
  unfold linkUnits
  simp only [hcollects, ok_bind]
  simp only [show Court.nameAll _ _ _ = _ from named]

/-- As many operations are counted in every unit as it reaches. -/
def Design.Covered (d : Design) : Prop := ∀ u ∈ d.units, u.Covered

instance (d : Design) : Decidable d.Covered :=
  inferInstanceAs (Decidable (∀ u ∈ d.units, u.Covered))

theorem finish_eq {verify : Bool} {d : Design} (covered : d.Covered) (count : Nat → Summary)
    {lexicon : Lexicon} (log : Log)
    (checked : verify = true → (joined d.units).misuses d.types lexicon = .ok []) :
    finish verify d count lexicon log =
      .ok ⟨.ok (count (joined d.units).body.length), ⟨d.types, [joined d.units]⟩, lexicon,
        log⟩ := by
  rw [finish, mergeUnits_eq_ok.mpr ⟨covered, rfl⟩, ok_bind]
  cases verify with
  | false => rfl
  | true =>
    simp only [if_true, checked rfl]
    rfl

/-- The units are merged, and nothing in the merger is found fault with, or something is. -/
theorem finish_cases {verify : Bool} {d : Design} {count : Nat → Summary} {lexicon : Lexicon}
    {log : Log} {linked : Linked} (h : finish verify d count lexicon log = .ok linked) :
    d.Covered ∧
      ((verify = true → (joined d.units).misuses d.types lexicon = .ok []) ∧
          linked = ⟨.ok (count (joined d.units).body.length), ⟨d.types, [joined d.units]⟩, lexicon,
            log⟩ ∨
        verify = true ∧ ∃ first others text,
          (joined d.units).misuses d.types lexicon = .ok (first :: others) ∧
          lexicon.text first.name = .ok text ∧
          linked = Rejection.linked ⟨.misuse text, (first :: others).map (·.report)⟩ ⟨d.types, []⟩
            lexicon log) := by
  obtain ⟨merged, hmerged, h⟩ := bind_eq_ok.mp h
  obtain ⟨covered, rfl⟩ := mergeUnits_eq_ok.mp hmerged
  refine ⟨covered, ?_⟩
  cases verify with
  | false =>
    cases h
    exact .inl ⟨fun unwanted => (by cases unwanted), rfl⟩
  | true =>
    obtain ⟨misuses, hmisuses, h⟩ := bind_eq_ok.mp h
    cases misuses with
    | nil =>
      cases h
      exact .inl ⟨fun _ => hmisuses, rfl⟩
    | cons first others =>
      obtain ⟨text, htext, h⟩ := bind_eq_ok.mp h
      cases h
      exact .inr ⟨rfl, first, others, text, hmisuses, htext, rfl⟩

theorem finish_phases {verify : Bool} {d : Design} {count : Nat → Summary} {lexicon : Lexicon}
    {log : Log} {linked : Linked} {summary : Summary}
    (h : finish verify d count lexicon log = .ok linked) (success : linked.result = .ok summary) :
    d.Covered ∧ linked.design = ⟨d.types, [joined d.units]⟩ ∧ linked.lexicon = lexicon ∧
      linked.log = log ∧ summary = count (joined d.units).body.length ∧
      (verify = true → (joined d.units).misuses d.types lexicon = .ok []) := by
  obtain ⟨covered, ⟨checked, rfl⟩ | ⟨-, first, others, text, -, -, rfl⟩⟩ := finish_cases h
  · cases success
    exact ⟨covered, rfl, rfl, rfl, rfl, checked⟩
  · cases success

/-- A link ends with the name that was turned down, or its phases are all there and it ends as they
are finished. -/
theorem linkUnits_cases {options : LinkOptions} {d : Design} {lexicon : Lexicon} {log : Log}
    {linked : Linked} (h : linkUnits options d lexicon log = .ok linked) :
    (∃ r, d.naming options lexicon = .error (.rejected r) ∧ linked.result = .error r.failure ∧
        linked.log = log.emitAll r.report) ∨
      ∃ p : Phases options d lexicon,
        finish options.verify p.rewritten p.summary p.naming.lexicon log = .ok linked := by
  unfold linkUnits at h
  obtain ⟨collected, hcollected, h⟩ := bind_eq_ok.mp h
  have named : d.naming options lexicon = Court.nameAll ⟨collected.map (·.unit), d.types,
      (assignTags options.tagStem 0 lexicon d.units).2⟩ options.policy
      (collected.map (·.declared)) := by
    unfold Design.naming
    simp only [hcollected]
    rfl
  simp only at h
  split at h
  · cases h
  · next r hrejected =>
    cases h
    exact .inl ⟨r, named.trans hrejected, rfl, rfl⟩
  · next naming hnaming =>
    obtain ⟨⟨remaps, counts, rewritten⟩, hrewritten, h⟩ := bind_eq_ok.mp h
    exact .inr ⟨⟨collected, naming, remaps, counts, rewritten, hcollected, hnaming, hrewritten⟩, h⟩

theorem link_phases {pool : WorkerPool} {options : LinkOptions} {d : Design} {lexicon : Lexicon}
    {log : Log} {linked : Linked} {summary : Summary}
    (h : link pool options d lexicon log = .ok linked) (success : linked.result = .ok summary) :
    ∃ p : Phases options d lexicon,
      linked.design = ⟨p.rewritten.types, [joined p.rewritten.units]⟩ ∧
      linked.lexicon = p.naming.lexicon ∧ linked.log = log ∧
      (options.verify = true → (joined p.rewritten.units).misuses p.rewritten.types
        p.naming.lexicon = .ok []) := by
  obtain ⟨-, h⟩ := starts_of_link h success
  rcases linkUnits_cases h with ⟨r, -, failure, -⟩ | ⟨p, h⟩
  · rw [failure] at success
    cases success
  · obtain ⟨-, hdesign, hlexicon, hlog, -, hverify⟩ := finish_phases h success
    exact ⟨p, hdesign, hlexicon, hlog, hverify⟩

theorem assignTags_fills (stem : String) (units : List LinkUnit) (count : Nat)
    (lexicon : Lexicon) :
    List.Forall₂ (fun u u' => ∃ tag, u' = { u with tag := some tag } ∧
        ∀ given ∈ u.tag, tag = given) units (assignTags stem count lexicon units).1 := by
  induction units generalizing count lexicon with
  | nil => exact .nil
  | cons u rest ih =>
    unfold assignTags
    cases htag : u.tag with
    | some tag =>
      refine .cons ⟨tag, by rw [← htag], fun given hgiven => ?_⟩ (ih count lexicon)
      rw [htag] at hgiven
      exact Option.some.inj hgiven
    | none =>
      refine .cons ⟨_, rfl, fun given hgiven => ?_⟩ (ih (count + 1) _)
      rw [htag] at hgiven
      cases hgiven

theorem assignTags_units (stem : String) (units : List LinkUnit) (count : Nat)
    (lexicon : Lexicon) :
    List.Forall₂ (fun u u' => ∃ tag, u' = { u with tag := some tag }) units
      (assignTags stem count lexicon units).1 :=
  (assignTags_fills stem units count lexicon).imp fun _ _ ⟨tag, heq, _⟩ => ⟨tag, heq⟩

theorem assignTags_of_tagged (stem : String) {units : List LinkUnit}
    (tagged : ∀ u ∈ units, ∃ tag, u.tag = some tag) (count : Nat) (lexicon : Lexicon) :
    assignTags stem count lexicon units = (units, lexicon) := by
  induction units with
  | nil => rfl
  | cons u rest ih =>
    obtain ⟨⟨tag, htag⟩, others⟩ := List.forall_mem_cons.mp tagged
    simp only [assignTags, htag, ih others]

structure Collected.Of (ps : List Placed) (c : Collected) : Prop where
  unfolds : c.unit.Unfolds (ps.filter (·.op.kind.declaration?.isSome))
  declared : ∀ space, c.declared.of space = ps.filterMap (Placed.declarationIn space)
  tagged : ∃ tag, c.unit.tag = some tag
  debris : c.debris + ((ps.filter (·.op.kind.declaration?.isSome)).flatMap Placed.entries).length =
    (ps.flatMap Placed.entries).length

theorem Collected.of_collect {u : LinkUnit} {ps : List Placed} (h : u.Unfolds ps) {tag : Name}
    {c : Collected} (hc : LinkUnit.collect { u with tag := some tag } = .ok c) :
    Collected.Of ps c ∧ (c.unit.Covered ↔ u.Covered) := by
  have retagged : LinkUnit.Unfolds { u with tag := some tag } ps := ⟨h.body, h.holds, h.nodup⟩
  obtain ⟨unfolds, tagged, declared, debris, live⟩ := LinkUnit.collect_eq retagged hc
  refine ⟨⟨unfolds, declared, ⟨tag, tagged⟩, debris⟩, ?_⟩
  rw [LinkUnit.covered_iff unfolds, LinkUnit.covered_iff h]
  simp only at live
  omega

theorem Design.unfolds_of_collects {d : Design} (forest : ∀ u ∈ d.units, u.IsForest) {stem : String}
    {lexicon : Lexicon} {collected : List Collected}
    (h : (assignTags stem 0 lexicon d.units).1.mapM LinkUnit.collect = .ok collected) :
    ∃ pss : List (List Placed), List.Forall₂ LinkUnit.Unfolds d.units pss ∧
      List.Forall₂ Collected.Of pss collected ∧
      List.Forall₂ (fun u c => c.unit.Covered ↔ u.Covered) d.units collected := by
  have tagged := assignTags_units stem d.units 0 lexicon
  rw [mapM_eq_ok] at h
  generalize (assignTags stem 0 lexicon d.units).1 = units at tagged h
  generalize d.units = before at forest tagged ⊢
  induction tagged generalizing collected with
  | nil =>
    cases h
    exact ⟨[], .nil, .nil, .nil⟩
  | @cons u _ _ _ head _ ih =>
    obtain ⟨tag, rfl⟩ := head
    obtain ⟨ps, hps⟩ := LinkUnit.isForest_iff.mp (forest u List.mem_cons_self)
    cases h with
    | cons first others =>
      obtain ⟨of, covered⟩ := Collected.of_collect hps first
      obtain ⟨pss, hpss, hcs, covers⟩ := ih others fun v hv => forest v (List.mem_cons_of_mem u hv)
      exact ⟨ps :: pss, .cons hps hpss, .cons of hcs, .cons covered covers⟩

theorem Design.Covered.exists_collected {d : Design} (covered : d.Covered)
    (forest : ∀ u ∈ d.units, u.IsForest) (stem : String) (lexicon : Lexicon) :
    ∃ collected, (assignTags stem 0 lexicon d.units).1.mapM LinkUnit.collect = .ok collected := by
  have tagged := assignTags_units stem d.units 0 lexicon
  simp only [mapM_eq_ok]
  refine exists_forall₂ fun u' hu' => ?_
  obtain ⟨u, hu, tag, rfl⟩ := forall₂_exists_left tagged hu'
  obtain ⟨ps, hps⟩ := LinkUnit.isForest_iff.mp (forest u hu)
  have retagged : LinkUnit.Unfolds { u with tag := some tag } ps :=
    ⟨hps.body, hps.holds, hps.nodup⟩
  exact LinkUnit.Covered.exists_collect (covered u hu) retagged

theorem Placed.root_tree (p : Placed) : p.tree.root = p.op.toNode := by
  cases p; rfl

/-- If no name is turned down and the types can be renamed, nothing else keeps a link from getting
to the end of its phases. -/
theorem exists_phases {options : LinkOptions} {d : Design} {lexicon : Lexicon} {naming : Naming}
    (forest : ∀ u ∈ d.units, u.IsForest) (covered : d.Covered)
    (named : d.naming options lexicon = .ok naming) {remaps : List TyRemap} {types : TyStore}
    (built : TyRemap.buildAll d.types d.units.length naming.renames = .ok (remaps, types)) :
    ∃ p : Phases options d lexicon, p.naming = naming := by
  obtain ⟨collected, hcollects⟩ := covered.exists_collected forest options.tagStem lexicon
  obtain ⟨pss, hpss, hcs, covers⟩ := Design.unfolds_of_collects forest hcollects
  unfold Design.naming at named
  simp only [hcollects] at named
  have count : (collected.map (·.unit)).length = d.units.length := by
    rw [List.length_map, ← hcs.length_eq, hpss.length_eq]
  have goesThrough : ∀ e ∈ ((collected.map (·.unit)).zip remaps).zipIdx, ∃ result,
      e.1.1.rewrite e.2 naming.renames e.1.2 = .ok result := by
    rintro ⟨⟨u, remap⟩, unit⟩ he
    have paired := List.mem_of_getElem? (List.mem_zipIdx_iff_getElem?.mp he)
    obtain ⟨c, hc, rfl⟩ := List.mem_map.mp (List.of_mem_zip paired).1
    obtain ⟨ps, -, of⟩ := forall₂_exists_left hcs hc
    obtain ⟨u, hu, same⟩ := forall₂_exists_left covers hc
    obtain ⟨counts, u', hrewrite⟩ :=
      (same.mpr (covered u hu)).exists_rewrite of.unfolds unit naming.renames remap
    exact ⟨_, hrewrite⟩
  obtain ⟨results, hresults⟩ := exists_forall₂ goesThrough
  refine ⟨⟨collected, naming, remaps, results.map (·.1), ⟨types, results.map (·.2)⟩, hcollects,
    named, ?_⟩, rfl⟩
  refine bind_eq_ok.mpr ⟨(remaps, types), by rw [count, built], ?_⟩
  exact bind_eq_ok.mpr ⟨results, mapM_eq_ok.mpr hresults, rfl⟩

theorem Collected.Of.forest_eq {u : LinkUnit} {ps : List Placed} {c : Collected}
    (h : Collected.Of ps c) (hu : u.Unfolds ps) :
    c.unit.forest = u.forest.filter (·.root.kind.declaration?.isSome) := by
  rw [LinkUnit.forest_eq h.unfolds, LinkUnit.forest_eq hu, List.filter_map]
  refine congrArg _ (List.filter_congr fun p _ => ?_)
  rw [Function.comp_apply, Placed.root_tree]

theorem Tree.dropStubs_filter (ts : List Tree) :
    dropStubs (ts.filter (·.root.kind.declaration?.isSome)) =
      (ts.filter (·.root.kind.isDefinition)).map withoutStubs := by
  rw [dropStubs_eq, List.filter_filter]
  refine congrArg _ (List.filter_congr fun t _ => ?_)
  rw [OpKind.isDefinition_eq, Bool.and_comm]

namespace Phases

variable {options : LinkOptions} {d : Design} {lexicon : Lexicon}

def remap (p : Phases options d lexicon) (unit : Nat) : TyId → TyId :=
  ((p.remaps[unit]?).getD .empty).apply

def moved (p : Phases options d lexicon) (e : Nat × Tree) : Tree :=
  e.2.mapNodes (Node.substitute (p.naming.renames.apply e.1) (p.remap e.1))

theorem exists_unfolding (p : Phases options d lexicon) (forest : ∀ u ∈ d.units, u.IsForest) :
    ∃ pss : List (List Placed), List.Forall₂ LinkUnit.Unfolds d.units pss ∧
      List.Forall₂ Collected.Of pss p.collected := by
  obtain ⟨pss, hpss, hcs, -⟩ := Design.unfolds_of_collects forest p.collects
  exact ⟨pss, hpss, hcs⟩

theorem length_collected (p : Phases options d lexicon) : p.collected.length = d.units.length :=
  (mapM_eq_ok.mp p.collects).length_eq.symm.trans
    (assignTags_units options.tagStem d.units 0 lexicon).length_eq.symm

theorem rewritten_eq (p : Phases options d lexicon) :
    TyRemap.buildAll d.types d.units.length p.naming.renames = .ok (p.remaps, p.rewritten.types) ∧
      p.rewritten.units.length = d.units.length ∧ p.counts.length = d.units.length ∧
      ∀ (unit : Nat) (c : Collected), p.collected[unit]? = some c → ∃ counts remap u',
        p.remaps[unit]? = some remap ∧ p.rewritten.units[unit]? = some u' ∧
        p.counts[unit]? = some counts ∧
        c.unit.rewrite unit p.naming.renames remap = .ok (counts, u') := by
  have count := p.length_collected
  obtain ⟨⟨remaps, types⟩, hremaps, h⟩ := bind_eq_ok.mp p.rewrites
  obtain ⟨results, hresults, h⟩ := bind_eq_ok.mp h
  have outcome := Except.ok.inj h
  obtain rfl : remaps = p.remaps := congrArg (·.1) outcome
  have hrewritten : p.rewritten = ⟨types, results.map (·.2)⟩ := congrArg (·.2.2) outcome.symm
  have hcounts : p.counts = results.map (·.1) := congrArg (·.2.1) outcome.symm
  rw [hrewritten, hcounts]
  simp only [List.length_map, count] at hremaps
  have remapped : p.remaps.length = d.units.length := by
    rw [length_mapAccumM hremaps, List.length_range]
  have counted : results.length = d.units.length := by
    rw [← (mapM_eq_ok.mp hresults).length_eq, List.length_zipIdx, List.length_zip,
      List.length_map, count, remapped, Nat.min_self]
  refine ⟨hremaps, by rw [List.length_map, counted], by rw [List.length_map, counted],
    fun unit c hc => ?_⟩
  · have inside : unit < p.remaps.length := by
      rw [remapped, ← count]
      exact (List.getElem?_eq_some_iff.mp hc).1
    have hremap := List.getElem?_eq_getElem inside
    have paired : ((p.collected.map (·.unit)).zip p.remaps).zipIdx[unit]? =
        some ((c.unit, p.remaps[unit]), unit) := by
      simp [List.getElem?_zipIdx, List.getElem?_zip_eq_some, hc, hremap]
    obtain ⟨⟨counts, u'⟩, hresult, hrewrite⟩ := forall₂_getElem? (mapM_eq_ok.mp hresults) paired
    refine ⟨counts, p.remaps[unit], u', hremap, ?_, ?_, hrewrite⟩
    · rw [List.getElem?_map, hresult]
      rfl
    · rw [List.getElem?_map, hresult]
      rfl

theorem forest_eq (p : Phases options d lexicon) (forest : ∀ u ∈ d.units, u.IsForest) :
    p.rewritten.units.flatMap LinkUnit.forest = d.definitions.map p.moved := by
  obtain ⟨pss, hpss, hcs⟩ := p.exists_unfolding forest
  obtain ⟨-, same, -, each⟩ := p.rewritten_eq
  rw [Design.definitions, List.map_flatMap]
  refine (flatMap_eq_of_getElem? (by rw [List.length_zipIdx, same]) ?_).symm
  rintro i ⟨u, unit⟩ u' hu hu'
  rw [List.getElem?_zipIdx, Option.map_eq_some_iff] at hu
  obtain ⟨_, hu, heq⟩ := hu
  cases heq
  rw [Nat.zero_add]
  obtain ⟨ps, hps, unfolds⟩ := forall₂_getElem? hpss hu
  obtain ⟨c, hc, of⟩ := forall₂_getElem? hcs hps
  obtain ⟨counts, remap, v, hremap, hv, -, hrewrite⟩ := each i c hc
  obtain rfl : u' = v := Option.some.inj (hu'.symm.trans hv)
  obtain ⟨hforest, -⟩ := LinkUnit.rewrite_eq of.unfolds hrewrite
  have becomes : p.remap i = remap.apply := by rw [Phases.remap, hremap, Option.getD_some]
  rw [hforest, of.forest_eq unfolds, Tree.dropStubs_filter, ← becomes, List.map_map, List.map_map]
  rfl

theorem unit_covered_iff (p : Phases options d lexicon) (forest : ∀ u ∈ d.units, u.IsForest)
    {unit : Nat} {u u' : LinkUnit} (hu : d.units[unit]? = some u)
    (hu' : p.rewritten.units[unit]? = some u') : u'.Covered ↔ u.Covered := by
  obtain ⟨pss, hpss, hcs, covers⟩ := Design.unfolds_of_collects forest p.collects
  obtain ⟨-, -, -, each⟩ := p.rewritten_eq
  obtain ⟨ps, hps, -⟩ := forall₂_getElem? hpss hu
  obtain ⟨c, hc, of⟩ := forall₂_getElem? hcs hps
  obtain ⟨c', hc', collected⟩ := forall₂_getElem? covers hu
  obtain rfl := Option.some.inj (hc.symm.trans hc')
  obtain ⟨counts, remap, v, -, hv, -, hrewrite⟩ := each unit c hc
  obtain rfl := Option.some.inj (hu'.symm.trans hv)
  exact (LinkUnit.rewrite_eq of.unfolds hrewrite).2.trans collected

/-- No phase loses count: what is left is all counted exactly if all was to begin with. -/
theorem covered_iff (p : Phases options d lexicon) (forest : ∀ u ∈ d.units, u.IsForest) :
    p.rewritten.Covered ↔ d.Covered := by
  obtain ⟨-, same, -, -⟩ := p.rewritten_eq
  constructor
  · intro h u hu
    obtain ⟨unit, hu⟩ := List.mem_iff_getElem?.mp hu
    have inside : unit < p.rewritten.units.length := same ▸ (List.getElem?_eq_some_iff.mp hu).1
    have hu' := List.getElem?_eq_getElem inside
    exact (p.unit_covered_iff forest hu hu').mp (h _ (List.mem_of_getElem? hu'))
  · intro h u' hu'
    obtain ⟨unit, hu'⟩ := List.mem_iff_getElem?.mp hu'
    have inside : unit < d.units.length := same ▸ (List.getElem?_eq_some_iff.mp hu').1
    have hu := List.getElem?_eq_getElem inside
    exact (p.unit_covered_iff forest hu hu').mpr (h _ (List.mem_of_getElem? hu))

/-- The types of a unit are renamed as the unit is, whatever types the other units needed. -/
theorem substituted (p : Phases options d lexicon) {unit : Nat} (hunit : unit < d.units.length)
    {id : TyId} (hid : id.index < d.types.size) :
    TyStore.Substituted (p.naming.renames.get? unit) d.types p.rewritten.types id
      (p.remap unit id) := by
  obtain ⟨-, each⟩ := TyRemap.buildAll_substituted p.rewritten_eq.1
  have position : (List.range d.units.length)[unit]? = some unit := List.getElem?_range hunit
  obtain ⟨remap, hremap, becomes⟩ := forall₂_getElem? each position
  rw [Phases.remap, hremap, Option.getD_some]
  exact becomes id (TyStore.mem_ids hid)

theorem denotes_remap (p : Phases options d lexicon) {unit : Nat} (hunit : unit < d.units.length)
    {id : TyId} {t : TyTree} (h : d.types.Denotes id t) :
    p.rewritten.types.Denotes (p.remap unit id) (t.rename (p.naming.renames.apply unit)) :=
  (p.substituted hunit h.lt_size).denotes h

end Phases

theorem joined_forest (units : List LinkUnit) :
    (joined units).IsForest ∧ (joined units).forest = units.flatMap LinkUnit.forest := by
  obtain ⟨ps, htrees, hps⟩ := joined_unfolds units
  exact ⟨LinkUnit.isForest_iff.mpr ⟨ps, hps⟩, by rw [LinkUnit.forest_eq hps, htrees]⟩

theorem covered_of_link {pool : WorkerPool} {options : LinkOptions} {d : Design}
    {lexicon : Lexicon} {log : Log} {linked : Linked} {summary : Summary}
    (forest : ∀ u ∈ d.units, u.IsForest)
    (h : link pool options d lexicon log = .ok linked) (success : linked.result = .ok summary) :
    d.Covered := by
  obtain ⟨-, h⟩ := starts_of_link h success
  rcases linkUnits_cases h with ⟨r, -, failure, -⟩ | ⟨p, h⟩
  · rw [failure] at success
    cases success
  · obtain ⟨covered, -⟩ := finish_phases h success
    exact (p.covered_iff forest).mp covered

end Linkage
