import Linkage.Proofs.Binding
import Linkage.Proofs.SymbolUses
/-!
What a checked link says of the references before it. The check runs on the linked unit, where the
fresh names are declared too: a reference that nothing declared goes through if a fresh name
happens to be its own.
-/
namespace Linkage

namespace Phases

variable {options : LinkOptions} {d : Design} {lexicon : Lexicon}

theorem declares_of_some (p : Phases options d lexicon) (forest : ∀ u ∈ d.units, u.IsForest)
    {unit : Nat} {name new : Name} (h : p.naming.renames.get? unit name = some new) :
    ∃ space t, (unit, t) ∈ d.declarers space name := by
  obtain ⟨space, hmem⟩ := (p.isSome_get?_iff forest unit name).mp (by rw [h]; rfl)
  have declared : unit ∈ (d.declarers space name).map (·.1) := Design.renamed_subset _ _ hmem
  obtain ⟨⟨_, t⟩, ht, rfl⟩ := List.mem_map.mp declared
  exact ⟨space, t, ht⟩

/-- A name that is declared after the link under the substitution of a unit was declared before it,
unless it is one of the fresh ones. -/
theorem declared_before (p : Phases options d lexicon) (forest : ∀ u ∈ d.units, u.IsForest)
    {unit : Nat} {name : Name} {t : Tree} (ht : t ∈ (joined p.rewritten.units).forest)
    (hdeclared : t.root.kind.declared? = some (p.naming.renames.apply unit name)) :
    (∃ u ∈ d.units, ∃ t ∈ u.forest, t.root.kind.declared? = some name) ∨
      ∃ unit' old, p.naming.renames.get? unit' old = some name := by
  have declares : ∀ {i : Nat} {old : Name} {t : Tree} {space : Space},
      (i, t) ∈ d.declarers space old →
        ∃ u ∈ d.units, ∃ t ∈ u.forest, t.root.kind.declared? = some old := by
    intro i old t space h
    obtain ⟨u, hu, hmem, hdeclares⟩ := Design.mem_declarers.mp h
    exact ⟨u, List.mem_of_getElem? hu, t, hmem, Tree.declared?_of_declares hdeclares⟩
  cases h : p.naming.renames.get? unit name with
  | some new =>
    obtain ⟨space, t, hdeclarer⟩ := p.declares_of_some forest h
    exact .inl (declares hdeclarer)
  | none =>
    rw [Renaming.apply_eq_of_none h, OpKind.declared?_eq, Option.map_eq_some_iff] at hdeclared
    obtain ⟨⟨space, found⟩, hdeclaration, hfound⟩ := hdeclared
    have same : found = name := hfound
    rw [same] at hdeclaration
    rw [(joined_forest _).2, p.forest_eq forest] at ht
    obtain ⟨⟨i, before⟩, hmem, rfl⟩ := List.mem_map.mp ht
    obtain ⟨old, hold, happly⟩ := p.declares_moved.mp (Tree.declares_iff.mpr hdeclaration)
    obtain ⟨t', ht', -, -⟩ := mem_definitions_of_declares hmem hold
    cases h' : p.naming.renames.get? i old with
    | some new =>
      rw [Renaming.apply_eq_of_some h'] at happly
      exact .inr ⟨i, old, happly ▸ h'⟩
    | none =>
      rw [Renaming.apply_eq_of_none h'] at happly
      exact .inl (declares (happly ▸ ht'))

end Phases

/-- If the check is on, a link that succeeds leaves no reference without a declaration: every name
that a surviving operation referred to was declared at top level by some unit, or is one of the
fresh names that the link gave out. -/
theorem verified_link_declares {options : LinkOptions} {d : Design} {lexicon : Lexicon} {log : Log}
    {linked : Linked} {summary : Summary} (wf : d.WellFormed lexicon)
    (verify : options.verify = true) (h : link pool options d lexicon log = .ok linked)
    (success : linked.result = .ok summary) :
    ∃ naming, d.naming options lexicon = .ok naming ∧
      ∀ unit t, (unit, t) ∈ d.definitions → ∀ n ∈ t.nodes,
        ∃ names, n.mentions d.types = .ok names ∧ ∀ name ∈ names,
          (∃ u ∈ d.units, ∃ t ∈ u.forest, t.root.kind.declared? = some name) ∨
            ∃ unit old, naming.renames.get? unit old = some name := by
  obtain ⟨p, -, -, -, checked⟩ := link_phases h success
  obtain ⟨forest, htrees⟩ := joined_forest p.rewritten.units
  refine ⟨p.naming, p.naming_eq, fun unit t hmem n hn => ?_⟩
  obtain ⟨names, hnames, hnames'⟩ := p.mentions_eq wf hmem hn
  refine ⟨names, hnames, fun name hname => ?_⟩
  -- the operation stands in the linked unit, and so does what it refers to
  have moved : p.moved (unit, t) ∈ (joined p.rewritten.units).forest := by
    rw [htrees, p.forest_eq wf.forest]
    exact List.mem_map_of_mem hmem
  have here : n.substitute (p.naming.renames.apply unit) (p.remap unit) ∈
      (p.moved (unit, t)).nodes := by
    rw [Phases.moved, Tree.nodes_mapNodes]
    exact List.mem_map_of_mem hn
  obtain ⟨t', ht', hdeclared⟩ := LinkUnit.declared_of_misuses forest (checked verify) moved here
    hnames' (List.mem_map_of_mem hname)
  exact p.declared_before wf.forest ht' hdeclared

/-- With the check on, the two units of the same module and adder link, and so each of their
references had its declaration. -/
theorem verified_link_declares_mux :
    ∃ linked summary naming, LinkOptions.standard.verify = true ∧
      link .granted .standard muxDesign muxNames .empty = .ok linked ∧ linked.result = .ok summary ∧
      muxDesign.naming .standard muxNames = .ok naming ∧
      ∀ unit t, (unit, t) ∈ muxDesign.definitions → ∀ n ∈ t.nodes,
        ∃ names, n.mentions muxDesign.types = .ok names ∧ ∀ name ∈ names,
          (∃ u ∈ muxDesign.units, ∃ t ∈ u.forest, t.root.kind.declared? = some name) ∨
            ∃ unit old, naming.renames.get? unit old = some name := by
  obtain ⟨linked, summary, h, success⟩ := Design.links_iff.mp muxDesign_links
  obtain ⟨naming, hnaming, declared⟩ := verified_link_declares muxDesign_wellFormed rfl h success
  exact ⟨linked, summary, naming, rfl, h, success, hnaming, declared⟩

def danglingNames : Lexicon := ⟨#["mux2", "mux2_0", "port", "uses"], by decide⟩

/-- Two units, each with a module of the same name. The first refers to a name that no unit
declares, and that the module of the second will get. -/
def danglingDesign : Design where
  types := ⟨#[]⟩
  units :=
    [muxUnit [muxOp (.moduleDef .local ⟨⟨0⟩, []⟩) [⟨1⟩] []] [⟨0⟩],
    muxUnit [muxOp (.moduleDef .local ⟨⟨0⟩, []⟩) [] []] [⟨0⟩]]

theorem danglingDesign_wellFormed : danglingDesign.WellFormed danglingNames where
  forest := by decide
  typed := by decide
  closed := TyStore.Ordered.closed (by decide)
  acyclic := TyStore.Ordered.acyclic (by decide)
  named := by decide

/-- The check does not find the reference that dangled. -/
theorem verified_link_captures_dangling :
    danglingDesign.WellFormed danglingNames ∧ danglingDesign.UniqueNames ∧
    LinkOptions.standard.verify = true ∧
    (∃ linked summary, link .granted .standard danglingDesign danglingNames .empty = .ok linked ∧
      linked.result = .ok summary) ∧
    ∃ t n names name, (0, t) ∈ danglingDesign.definitions ∧ n ∈ t.nodes ∧
      n.mentions danglingDesign.types = .ok names ∧ name ∈ names ∧
      ∀ u ∈ danglingDesign.units, ∀ t ∈ u.forest, t.root.kind.declared? ≠ some name := by
  have links : danglingDesign.links .standard danglingNames = true := by decide +kernel
  refine ⟨danglingDesign_wellFormed, by decide, rfl, Design.links_iff.mp links, ?_⟩
  have first : (0, (danglingDesign.definitions[0]).2) ∈ danglingDesign.definitions :=
    List.mem_of_getElem? (i := 0) rfl
  exact ⟨_, _, [⟨1⟩], ⟨1⟩, first, Tree.root_mem_nodes _, rfl, List.mem_cons_self, by decide⟩

end Linkage
