import Linkage.Proofs.Clearing
import Linkage.Proofs.Docket
import Linkage.Proofs.Refinement
/-!
A name that is turned down. The first such name on the docket ends the link, whatever the options,
with one diagnostic on it. The design keeps its types and its units, of which the units are cleared
and nothing is renamed; linking what is left ends on the same name once more, and leaves it as it
is.
-/
namespace Linkage

theorem Rejection.Concerns.exists_diagnostic {text : String} {space : Space} {r : Rejection}
    (h : r.Concerns text space) : ∃ diagnostic, r = ⟨r.failure, [diagnostic]⟩ := by
  cases h <;> exact ⟨_, rfl⟩

namespace Design

variable {d : Design} {lexicon : Lexicon}

theorem WellFormed.verdict_answers (wf : d.WellFormed lexicon) (covered : d.Covered)
    (spoken : d.Spoken lexicon) {e : Space × Name} (he : e ∈ docket d.roll) :
    Linking.Answers (fun r => ∃ text, lexicon.text e.2 = .ok text ∧ r.Concerns text e.1)
      (fun _ => False) (d.verdict lexicon e) := by
  obtain ⟨collected, hcollects⟩ := covered.exists_collected wf.forest "" lexicon
  obtain ⟨pss, hpss, hcs, -⟩ := unfolds_of_collects wf.forest hcollects
  have listed : e.2 ∈ d.roll e.1 := mem_docket.mp he
  have reads : d.Reads lexicon fun _ => False := wf.reads spoken (Nat.le_refl _)
  have judged := reads.judge_answers hpss hcs listed
  rwa [wf.verdict_eq spoken hpss hcs (.refl lexicon) listed] at judged

section

variable {before after : List (Space × Name)} {e : Space × Name} {r : Rejection}
  (split : docket d.roll = before ++ e :: after)
  (passes : ∀ e ∈ before, ∃ verdict, d.verdict lexicon e = .ok verdict)
  (stops : d.verdict lexicon e = .error (.rejected r))

include split passes stops

theorem WellFormed.nameAll_of_rejected (wf : d.WellFormed lexicon) (spoken : d.Spoken lexicon)
    {stem : String} (policy : RenamePolicy) {collected : List Collected}
    (hcollects : (assignTags stem 0 lexicon d.units).1.mapM LinkUnit.collect = .ok collected) :
    Court.nameAll ⟨collected.map (·.unit), d.types, (assignTags stem 0 lexicon d.units).2⟩ policy
      (collected.map (·.declared)) = .error (.rejected r) := by
  obtain ⟨pss, hpss, hcs, -⟩ := unfolds_of_collects wf.forest hcollects
  have more := assignTags_lexicon stem d.units 0 lexicon
  have listed : docket (Catalogue.names (collected.map (·.declared))) = before ++ e :: after := by
    rw [names_collected hpss hcs, split]
  have named : ∀ name ∈ (collected.map (·.declared)).flatMap Catalogue.roll,
      name.index < (assignTags stem 0 lexicon d.units).2.size := fun name hname =>
    Nat.lt_of_lt_of_le (named_collected wf.named hpss hcs name hname) more.size
  have judged : ∀ words, (assignTags stem 0 lexicon d.units).2.Extends words →
      ∀ e' ∈ before ++ e :: after,
      Court.judge ⟨collected.map (·.unit), d.types, words⟩ e'.1 e'.2
        (Catalogue.sites (collected.map (·.declared)) e'.1 e'.2) = d.verdict lexicon e' :=
    fun words grown e' he' =>
      wf.verdict_eq spoken hpss hcs (more.trans grown) (mem_docket.mp (split ▸ he'))
  refine Court.nameAll_eq_error listed named
    (tagged_collected hcs (known_tags spoken.tags hcollects)) (fun words grown e' he' => ?_)
    fun words grown => ?_
  · obtain ⟨verdict, hverdict⟩ := passes e' he'
    exact ⟨verdict, (judged words grown e' (List.mem_append_left _ he')).trans hverdict⟩
  · exact (judged words grown e (List.mem_append_right _ List.mem_cons_self)).trans stops

/-- Where a name is turned down, with what the link leaves of the design. -/
theorem WellFormed.link_of_rejected (wf : d.WellFormed lexicon) (covered : d.Covered)
    (spoken : d.Spoken lexicon) {pool : WorkerPool} (options : LinkOptions)
    (starts : pool.Starts options.threads) :
    ∃ (left : Design) (words : Lexicon), left.types = d.types ∧
      List.Forall₂ LinkUnit.Cleared d.units left.units ∧
      (∀ log, link pool options d lexicon log = .ok (r.linked left words log)) ∧
      ∀ log, link pool options left words log = .ok (r.linked left words log) := by
  obtain ⟨collected, hcollects⟩ := covered.exists_collected wf.forest options.tagStem lexicon
  have rejected := wf.nameAll_of_rejected split passes stops spoken options.policy hcollects
  have cleared := cleared_of_collects wf.forest hcollects
  have again := collects_again wf.forest covered hcollects
  have tagged : ∀ u ∈ collected.map (·.unit), ∃ tag, u.tag = some tag := by
    intro u hu
    obtain ⟨u', -, h⟩ := forall₂_exists_left cleared hu
    obtain ⟨tag, htag, -⟩ := h.tag
    exact ⟨tag, htag⟩
  refine ⟨⟨d.types, collected.map (·.unit)⟩, (assignTags options.tagStem 0 lexicon d.units).2, rfl,
    cleared, fun log => ?_, fun log => ?_⟩
  · rw [link_of_starts starts]
    unfold linkUnits
    simp only [hcollects, ok_bind, rejected]
    rfl
  · rw [link_of_starts starts]
    unfold linkUnits
    have declared : (collected.map fun c => (⟨c.declared, 0, c.unit⟩ : Collected)).map
        (·.declared) = collected.map (·.declared) := by rw [List.map_map]; rfl
    have units : (collected.map fun c => (⟨c.declared, 0, c.unit⟩ : Collected)).map
        (·.unit) = collected.map (·.unit) := by rw [List.map_map]; rfl
    simp only [assignTags_of_tagged options.tagStem tagged, again, ok_bind, declared, units,
      rejected]
    rfl

end

end Design

/-- If some name is turned down, every link of the design that has its workers ends on the first
one, with the failure and the diagnostic that the design gives for it, and leaves a design with the
same types and with its units cleared; and a link of that one ends in the same way and changes
nothing. -/
theorem link_rejects_first {d : Design} {lexicon : Lexicon} (wf : d.WellFormed lexicon)
    (covered : d.Covered) (spoken : d.Spoken lexicon)
    (fails : ∃ e ∈ docket d.roll, ¬ ∃ verdict, d.verdict lexicon e = .ok verdict) :
    ∃ before e after text failure diagnostic, docket d.roll = before ++ e :: after ∧
      (∀ e' ∈ before, ∃ verdict, d.verdict lexicon e' = .ok verdict) ∧
      d.verdict lexicon e = .error (.rejected ⟨failure, [diagnostic]⟩) ∧
      lexicon.text e.2 = .ok text ∧ Rejection.Concerns text e.1 ⟨failure, [diagnostic]⟩ ∧
      ∀ (pool : WorkerPool) options, pool.Starts options.threads →
        ∃ left words, left.types = d.types ∧
          List.Forall₂ LinkUnit.Cleared d.units left.units ∧
          (∀ log, link pool options d lexicon log =
            .ok ⟨.error failure, left, words, log.emit diagnostic⟩) ∧
          ∀ log, link pool options left words log =
            .ok ⟨.error failure, left, words, log.emit diagnostic⟩ := by
  obtain ⟨before, e, after, split, passes, stops⟩ := exists_first fails
  have answers := wf.verdict_answers covered spoken
    (split ▸ List.mem_append_right before List.mem_cons_self : e ∈ docket d.roll)
  cases hverdict : d.verdict lexicon e with
  | ok verdict => exact absurd ⟨verdict, hverdict⟩ stops
  | error halt =>
    rw [hverdict] at answers
    cases halt with
    | fault fault => exact answers.elim
    | rejected r =>
      obtain ⟨text, htext, concerns⟩ := answers
      obtain ⟨diagnostic, single⟩ := concerns.exists_diagnostic
      rw [single] at hverdict concerns
      refine ⟨before, e, after, text, r.failure, diagnostic, split, passes, hverdict, htext,
        concerns, fun pool options starts => ?_⟩
      exact wf.link_of_rejected split passes hverdict covered spoken options starts

def strayNames : Lexicon := ⟨#["mux2", "adder", "cell", "uses"], by decide⟩

/-- Two units with a module of the same name each. One imports an adder and the other a cell, and
nobody defines either. -/
def strayDesign : Design where
  types := ⟨#[.bool]⟩
  units :=
    [muxUnit
      [muxOp (.moduleDef .local ⟨⟨0⟩, []⟩) [] [],
        muxOp (.generic ⟨3⟩) [] [],
        muxOp (.moduleStub ⟨⟨1⟩, []⟩) [] []]
      [⟨0⟩, ⟨1⟩, ⟨2⟩],
    muxUnit
      [muxOp (.classStub ⟨⟨2⟩, [], []⟩) [] [],
        muxOp (.moduleDef .local ⟨⟨0⟩, []⟩) [] []]
      [⟨0⟩, ⟨1⟩]]

theorem strayDesign_wellFormed : strayDesign.WellFormed strayNames where
  forest := by decide
  typed := by decide
  closed := TyStore.Ordered.closed (by decide)
  acyclic := TyStore.Ordered.acyclic (by decide)
  named := by decide

theorem strayDesign_legible : strayDesign.Legible strayNames where
  tags := by decide
  words := by decide
  classes := by decide

theorem strayDesign_docket :
    docket strayDesign.roll = [(.modules, ⟨0⟩), (.modules, ⟨1⟩), (.classes, ⟨2⟩)] := by decide

theorem strayDesign_verdict : strayDesign.verdict strayNames (.modules, ⟨1⟩) =
    .error (.rejected ⟨.unresolved .modules "adder" 0,
      [Report.unresolved .modules "adder" [.dummy] []]⟩) := by rfl

/-- The adder is reported, though the cell is missing as well and the names for two modules were
found before. -/
theorem link_rejects_first_stray :
    strayDesign.WellFormed strayNames ∧ strayDesign.Covered ∧ strayDesign.Spoken strayNames ∧
      (∃ e ∈ docket strayDesign.roll,
        ¬ ∃ verdict, strayDesign.verdict strayNames e = .ok verdict) ∧
      ∀ options, ∃ left words, left.types = strayDesign.types ∧
        List.Forall₂ LinkUnit.Cleared strayDesign.units left.units ∧
        (∀ log, link .granted options strayDesign strayNames log =
          .ok ⟨.error (.unresolved .modules "adder" 0), left, words,
            log.emit (Report.unresolved .modules "adder" [.dummy] [])⟩) ∧
        ∀ log, link .granted options left words log =
          .ok ⟨.error (.unresolved .modules "adder" 0), left, words,
            log.emit (Report.unresolved .modules "adder" [.dummy] [])⟩ := by
  have rejected : ¬ ∃ verdict,
      strayDesign.verdict strayNames (.modules, ⟨1⟩) = .ok verdict := by
    rintro ⟨verdict, h⟩
    rw [strayDesign_verdict] at h
    cases h
  have fails : ∃ e ∈ docket strayDesign.roll,
      ¬ ∃ verdict, strayDesign.verdict strayNames e = .ok verdict :=
    ⟨(.modules, ⟨1⟩), by decide, rejected⟩
  have covered : strayDesign.Covered := by decide
  refine ⟨strayDesign_wellFormed, covered, strayDesign_legible.spoken, fails, ?_⟩
  obtain ⟨before, e, after, text, failure, diagnostic, split, passes, stops, -, -, links⟩ :=
    link_rejects_first strayDesign_wellFormed covered strayDesign_legible.spoken fails
  rw [strayDesign_docket] at split
  rcases before with _ | ⟨first, _ | ⟨second, rest⟩⟩
  · cases split
    cases stops
  · cases split
    rw [strayDesign_verdict] at stops
    cases stops
    exact fun options => links .granted options rfl
  · obtain ⟨-, rfl, -⟩ : first = _ ∧ second = _ ∧ _ := by simpa using split.symm
    exact absurd (passes _ (List.mem_cons_of_mem _ List.mem_cons_self)) rejected

end Linkage
