import Linkage.Proofs.Counters
import Linkage.Proofs.Docket
import Linkage.Proofs.Readings
import Linkage.Proofs.Refinement
/-!
A link comes to an end. On a well-formed design no phase meets a vacant slot, a type that is not
there or a type that contains itself, so a link succeeds or says which name is at fault; and the
counters of the units it leaves are exact if those of the units it got are.
-/
namespace Linkage

theorem LinkUnit.exists_misuses {u : LinkUnit} (forest : u.IsForest) {types : TyStore}
    {lexicon : Lexicon}
    (denoted : ∀ t ∈ u.forest, ∀ n ∈ t.nodes, ∀ id ∈ n.types, ∃ tree, types.Denotes id tree ∧
      ∀ name ∈ tree.classes, name.index < lexicon.size)
    (worded : ∀ t ∈ u.forest, ∀ n ∈ t.nodes, ∀ name ∈ n.words, name.index < lexicon.size) :
    ∃ found, u.misuses types lexicon = .ok found := by
  let Known (id : TyId) : Prop := ∃ tree, types.Denotes id tree ∧
    ∀ name ∈ tree.classes, name.index < lexicon.size
  have readable : types.Readable lexicon Known (·.index < lexicon.size) fun _ => False := by
    refine ⟨fun id ⟨tree, htree, spoken⟩ => ?_, fun id ⟨tree, htree, spoken⟩ => ?_,
      fun name known => ?_⟩
    · obtain ⟨text, htext⟩ := TyTree.exists_text spoken
      exact ends_of_ok ((htree.display_eq lexicon).trans htext) trivial
    · exact ends_of_ok htree.classes_eq spoken
    · exact Lexicon.text_answers known
  have within : ∀ t ∈ u.forest, ∀ n ∈ t.nodes, n.Within Known (·.index < lexicon.size) :=
    fun t ht n hn => ⟨denoted t ht n hn, worded t ht n hn⟩
  exact (misuses_ends forest readable within).exists_ok.imp fun _ => And.left

theorem Rejection.Concerns.ne_broken {text : String} {space : Space} {r : Rejection}
    (h : r.Concerns text space) (detail : String) : r.failure ≠ .broken detail := by
  cases h <;> exact fun absurd => by cases absurd

namespace Phases

variable {options : LinkOptions} {d : Design} {lexicon : Lexicon}

/-- The operations in the units that a link merges are those in the definitions, changed. -/
theorem exists_origin (p : Phases options d lexicon) (forest : ∀ u ∈ d.units, u.IsForest)
    {t : Tree} (ht : t ∈ (joined p.rewritten.units).forest) {n : Node} (hn : n ∈ t.nodes) :
    ∃ e ∈ d.definitions, e.1 < d.units.length ∧ ∃ before ∈ e.2.nodes,
      before.substitute (p.naming.renames.apply e.1) (p.remap e.1) = n := by
  rw [(joined_forest _).2, p.forest_eq forest] at ht
  obtain ⟨e, he, rfl⟩ := List.mem_map.mp ht
  rw [moved, Tree.nodes_mapNodes] at hn
  obtain ⟨before, hbefore, rfl⟩ := List.mem_map.mp hn
  obtain ⟨u, hu, -⟩ := Design.mem_definitions.mp he
  exact ⟨e, he, (List.getElem?_eq_some_iff.mp hu).1, before, hbefore, rfl⟩

theorem denoted_merged (p : Phases options d lexicon) (wf : d.WellFormed lexicon)
    (spoken : d.Spoken lexicon) :
    ∀ t ∈ (joined p.rewritten.units).forest, ∀ n ∈ t.nodes, ∀ id ∈ n.types,
      ∃ tree, p.rewritten.types.Denotes id tree ∧
        ∀ name ∈ tree.classes, name.index < p.naming.lexicon.size := by
  intro t ht n hn id hid
  obtain ⟨⟨unit, t⟩, he, inside, before, hbefore, rfl⟩ := p.exists_origin wf.forest ht hn
  rw [Node.types_substitute] at hid
  obtain ⟨old, hold, rfl⟩ := List.mem_map.mp hid
  obtain ⟨u, hu, t, hmem, -, rfl⟩ := Design.mem_definitions.mp he
  have stored := wf.typed u (List.mem_of_getElem? hu) t hmem before
    (t.nodes_withoutStubs_sublist.subset hbefore) old hold
  obtain ⟨tree, htree⟩ := TyStore.exists_denotes wf.closed wf.acyclic stored
  refine ⟨_, p.denotes_remap inside htree, fun name hname => ?_⟩
  rw [TyTree.classes_rename] at hname
  obtain ⟨old, hold, rfl⟩ := List.mem_map.mp hname
  exact p.known_apply unit
    (Nat.lt_of_lt_of_le (spoken.of_denotes htree old hold) p.extends_naming.size)

theorem worded_merged (p : Phases options d lexicon) (forest : ∀ u ∈ d.units, u.IsForest)
    (legible : d.Legible lexicon) :
    ∀ t ∈ (joined p.rewritten.units).forest, ∀ n ∈ t.nodes, ∀ name ∈ n.words,
      name.index < p.naming.lexicon.size := by
  intro t ht n hn name hname
  obtain ⟨⟨unit, t⟩, he, -, before, hbefore, rfl⟩ := p.exists_origin forest ht hn
  obtain ⟨u, hu, t, hmem, -, rfl⟩ := Design.mem_definitions.mp he
  have known : ∀ old ∈ before.words, old.index < p.naming.lexicon.size := fun old hold =>
    Nat.lt_of_lt_of_le (legible.words u (List.mem_of_getElem? hu) t hmem before
      (t.nodes_withoutStubs_sublist.subset hbefore) old hold) p.extends_naming.size
  rcases Node.mem_words_substitute hname with same | ⟨old, hold, rfl⟩
  · exact known name same
  · exact p.known_apply unit (known old hold)

theorem exists_finish (p : Phases options d lexicon) (wf : d.WellFormed lexicon)
    (covered : d.Covered) (legible : d.Legible lexicon) (log : Log) :
    ∃ linked, finish options.verify p.rewritten p.summary p.naming.lexicon log = .ok linked ∧
      (∀ detail, linked.result ≠ .error (.broken detail)) ∧
      ∀ u ∈ linked.design.units, u.ops.Exact := by
  have forest := (joined_forest p.rewritten.units).1
  obtain ⟨found, hfound⟩ := LinkUnit.exists_misuses forest (p.denoted_merged wf legible.spoken)
    (p.worded_merged wf.forest legible)
  have counted := (p.covered_iff wf.forest).mpr covered
  by_cases fine : options.verify = true → found = []
  · refine ⟨_, finish_eq counted p.summary log fun wanted => fine wanted ▸ hfound, ?_, ?_⟩
    · intro detail broken
      cases broken
    · exact List.forall_mem_singleton.mpr (exact_joined p.rewritten.units)
  · obtain ⟨wanted, some_misuse⟩ := Classical.not_imp.mp fine
    obtain ⟨first, others, rfl⟩ := List.exists_cons_of_ne_nil some_misuse
    obtain ⟨number, -, told⟩ := LinkUnit.told_of_misuses forest hfound first List.mem_cons_self
    obtain ⟨text, htext⟩ := told.exists_text
    have ends : finish options.verify p.rewritten p.summary p.naming.lexicon log =
        .ok (Rejection.linked ⟨.misuse text, (first :: others).map (·.report)⟩
          ⟨p.rewritten.types, []⟩ p.naming.lexicon log) := by
      rw [finish, mergeUnits_eq_ok.mpr ⟨counted, rfl⟩, ok_bind]
      simp only [wanted, if_true, hfound, ok_bind, htext]
      rfl
    refine ⟨_, ends, ?_, ?_⟩
    · intro detail broken
      cases broken
    · intro u hu
      cases hu

end Phases

theorem exact_collected {d : Design} {stem : String} {lexicon : Lexicon}
    {collected : List Collected} (exact : ∀ u ∈ d.units, u.ops.Exact)
    (h : (assignTags stem 0 lexicon d.units).1.mapM LinkUnit.collect = .ok collected) :
    ∀ u ∈ collected.map (·.unit), u.ops.Exact := by
  intro u hu
  obtain ⟨c, hc, rfl⟩ := List.mem_map.mp hu
  obtain ⟨tagged, htagged, hcollect⟩ := forall₂_exists_left (mapM_eq_ok.mp h) hc
  obtain ⟨before, hbefore, tag, rfl⟩ :=
    forall₂_exists_left (assignTags_units stem d.units 0 lexicon) htagged
  exact (LinkUnit.spent_collect hcollect).exact (exact before hbefore)

/-- On a well-formed design nothing but a name that is turned down keeps a link from getting to the
end of its phases, if the operations are counted. -/
theorem Design.WellFormed.exists_phases {d : Design} {lexicon : Lexicon} (wf : d.WellFormed lexicon)
    (covered : d.Covered) {options : LinkOptions} {naming : Naming}
    (named : d.naming options lexicon = .ok naming) :
    ∃ p : Phases options d lexicon, p.naming = naming := by
  obtain ⟨remaps, types, built⟩ := TyRemap.exists_buildAll d.types
    (TyStore.denoted_ids wf.closed wf.acyclic) d.units.length naming.renames
  exact Linkage.exists_phases wf.forest covered named built

/-- A well-formed design whose operations are counted is linked to an end: it never turns out that
anything is broken, and exact counters stay exact. -/
theorem linkUnits_answers {d : Design} {lexicon : Lexicon} (wf : d.WellFormed lexicon)
    (covered : d.Covered) (legible : d.Legible lexicon) (options : LinkOptions) (log : Log) :
    ∃ linked, linkUnits options d lexicon log = .ok linked ∧
      (∀ detail, linked.result ≠ .error (.broken detail)) ∧
      ((∀ u ∈ d.units, u.ops.Exact) → ∀ u ∈ linked.design.units, u.ops.Exact) := by
  obtain ⟨collected, hcollects⟩ := covered.exists_collected wf.forest options.tagStem lexicon
  have grown := assignTags_lexicon options.tagStem d.units 0 lexicon
  have reads : ∀ words : Lexicon,
      (assignTags options.tagStem 0 lexicon d.units).2.Extends words →
        d.Reads words fun _ => False :=
    fun words more => wf.reads legible.spoken (grown.trans more).size
  have answers := Design.naming_ends wf.forest reads hcollects
  cases named : d.naming options lexicon with
  | error halt =>
    rw [named] at answers
    cases halt with
    | fault fault => exact answers.elim
    | rejected r =>
      obtain ⟨space, text, concerns⟩ := answers
      obtain ⟨collected, hcollects, hlink⟩ := linkUnits_of_rejected named
      refine ⟨_, hlink log, ?_, fun exact => exact_collected exact hcollects⟩
      exact fun detail broken => concerns.ne_broken detail (Except.error.inj broken)
  | ok naming =>
    obtain ⟨p, -⟩ := wf.exists_phases covered named
    rw [p.linkUnits_eq]
    obtain ⟨linked, hlinked, sound, exact⟩ := p.exists_finish wf covered legible log
    exact ⟨linked, hlinked, sound, fun _ => exact⟩

end Linkage
