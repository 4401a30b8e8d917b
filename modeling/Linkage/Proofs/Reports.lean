import Linkage.Proofs.Rejections
import Linkage.Proofs.Totality
import Linkage.Proofs.Uniqueness
/-!
What a link writes to the log. It only ever adds to it, and what it adds goes with how it ends:
nothing if it succeeds, one diagnostic if a name is turned down, and one for each misuse if the
merged unit is found wanting. Every diagnostic is an error, and is counted as one.
-/
namespace Linkage

theorem Log.emitAll_errorCount {ds : List Diagnostic} (errors : ∀ d ∈ ds, d.severity = .error)
    (l : Log) : (l.emitAll ds).errorCount = l.errorCount + ds.length := by
  induction ds generalizing l with
  | nil => rfl
  | cons d rest ih =>
    obtain ⟨head, others⟩ := List.forall_mem_cons.mp errors
    have step := ih others (l.emit d)
    have counted : (l.emit d).errorCount = l.errorCount + 1 := by
      simp [emit, head, Severity.isError]
    simp only [emitAll, List.foldl_cons, List.length_cons] at step ⊢
    omega

def LinkFailure.number? : LinkFailure → Option Nat
  | .ambiguous _ => some 300
  | .unresolved _ _ definitions => some (if definitions = 0 then 301 else 302)
  | .mismatch _ _ => some 303
  | .uncovered _ _ => some 304
  | .misuse _ | .broken _ => none

theorem Rejection.Concerns.exists_number {text : String} {space : Space} {r : Rejection}
    (h : r.Concerns text space) : ∃ number diagnostic, r.failure.number? = some number ∧
      r.report = [diagnostic] ∧ diagnostic.heading = (.error, Report.code number) := by
  cases h with
  | ambiguous first others => exact ⟨_, _, rfl, rfl, Report.heading_ambiguous ..⟩
  | unresolved space stubs definitions => exact ⟨_, _, rfl, rfl, Report.heading_unresolved ..⟩
  | mismatch space stub definition detail => exact ⟨_, _, rfl, rfl, rfl⟩
  | uncovered field stub definition => exact ⟨_, _, rfl, rfl, rfl⟩

theorem Misuse.Told.heading {lexicon : Lexicon} {number : Nat} {misuse : Misuse}
    (h : misuse.Told lexicon number) :
    misuse.report.heading = (.error, Report.code number) := by
  cases h <;> rfl

/-- The new diagnostics, the result and the units that are left go together. -/
def Linked.Agrees (linked : Linked) (d : Design) (new : List Diagnostic) : Prop :=
  match linked.result with
  | .ok _ => new = []
  | .error (.misuse name) => linked.design.units = [] ∧
      ∃ (first : Misuse) (others : List Misuse), new = (first :: others).map (·.report) ∧
        linked.lexicon.text first.name = .ok name ∧
        ∀ misuse ∈ first :: others, ∃ number, (305 ≤ number ∧ number ≤ 307) ∧
          misuse.report.code = Report.code number ∧ misuse.Told linked.lexicon number
  | .error (.broken _) => linked.design = d ∧ new = []
  | .error failure => List.Forall₂ LinkUnit.Cleared d.units linked.design.units ∧
      ∃ number diagnostic, failure.number? = some number ∧ new = [diagnostic] ∧
        diagnostic.code = Report.code number

/-- The last phase is silent, or reports every misuse of a name and leaves no unit. -/
theorem finish_reports {verify : Bool} {d : Design} {count : Nat → Summary} {lexicon : Lexicon}
    {log : Log} {linked : Linked} (h : finish verify d count lexicon log = .ok linked)
    (before : Design) :
    ∃ new, linked.log = log.emitAll new ∧ (∀ d ∈ new, d.severity = .error) ∧
      linked.Agrees before new := by
  obtain ⟨-, ⟨-, rfl⟩ | ⟨-, first, others, text, hmisuses, htext, rfl⟩⟩ := finish_cases h
  · exact ⟨[], rfl, List.forall_mem_nil _, rfl⟩
  · have told := LinkUnit.told_of_misuses (joined_forest d.units).1 hmisuses
    refine ⟨(first :: others).map (·.report), rfl, ?_, rfl, first, others, rfl, htext, ?_⟩
    · intro report hreport
      obtain ⟨misuse, hmisuse, rfl⟩ := List.mem_map.mp hreport
      obtain ⟨number, -, told⟩ := told misuse hmisuse
      exact (Diagnostic.heading_eq_iff.mp told.heading).1
    · intro misuse hmisuse
      obtain ⟨number, range, told⟩ := told misuse hmisuse
      exact ⟨number, range, told.code, told⟩

theorem Rejection.Concerns.agrees {text : String} {space : Space} {r : Rejection}
    (h : r.Concerns text space) {before after : Design}
    (cleared : List.Forall₂ LinkUnit.Cleared before.units after.units) (lexicon : Lexicon)
    (log : Log) :
    (∀ d ∈ r.report, d.severity = .error) ∧
      (r.linked after lexicon log).Agrees before r.report := by
  obtain ⟨number, diagnostic, hnumber, hreport, heading⟩ := h.exists_number
  obtain ⟨error, code⟩ := Diagnostic.heading_eq_iff.mp heading
  rw [hreport]
  refine ⟨List.forall_mem_singleton.mpr error, ?_⟩
  cases h <;> exact ⟨cleared, number, diagnostic, hnumber, rfl, code⟩

theorem linkUnits_reports {d : Design} {lexicon : Lexicon} (forest : ∀ u ∈ d.units, u.IsForest)
    {options : LinkOptions} {log : Log} {linked : Linked}
    (h : linkUnits options d lexicon log = .ok linked) :
    ∃ new, linked.log = log.emitAll new ∧ (∀ d ∈ new, d.severity = .error) ∧
      linked.Agrees d new := by
  rcases linkUnits_cases h with ⟨r, named, -⟩ | ⟨p, hfinish⟩
  · obtain ⟨collected, hcollects, hlink⟩ := linkUnits_of_rejected named
    -- whatever else might have stopped it, it was a name that did
    have reads : ∀ words, d.Reads words fun _ => True := fun words =>
      ⟨fun _ _ _ _ _ _ => ends_trivial _, fun _ _ _ _ => ends_trivial _,
        fun _ _ _ _ _ _ => ends_trivial _⟩
    obtain ⟨space, text, concerns⟩ : ∃ space text, r.Concerns text space :=
      Linking.Answers.of_rejected ((Design.naming_ends forest (fun words _ => reads words)
        hcollects).imp (fun _ h => h) fun _ h => h) named
    have cleared : List.Forall₂ LinkUnit.Cleared d.units
        (Design.mk d.types (collected.map (·.unit))).units :=
      Design.cleared_of_collects forest hcollects
    obtain ⟨errors, agrees⟩ := concerns.agrees cleared _ log
    obtain rfl := Except.ok.inj ((hlink log).symm.trans h)
    exact ⟨r.report, rfl, errors, agrees⟩
  · exact finish_reports hfinish d

/-- The result of a link and the log always agree. A link only adds to the log, and counts one error
for each diagnostic it adds: none if it succeeds or lacks its workers; one with the code of its
failure if a name was turned down, and then every unit is still there; one or more for misuses of
names, of which the first is the one it fails with, and then the units are gone. -/
theorem link_reports {d : Design} {lexicon : Lexicon} (wf : d.WellFormed lexicon)
    (pool : WorkerPool) (options : LinkOptions) (log : Log) :
    (d.Covered → d.Legible lexicon → ∃ linked, link pool options d lexicon log = .ok linked) ∧
    ∀ linked, link pool options d lexicon log = .ok linked →
      ∃ new, linked.log.entries = log.entries ++ new ∧
        linked.log.errorCount = log.errorCount + new.length ∧ linked.Agrees d new := by
  rcases pool.starts_or options.threads with starts | ⟨reason, stalled⟩
  · rw [link_of_starts starts]
    refine ⟨fun covered legible => ?_, fun linked h => ?_⟩
    · obtain ⟨linked, h, -⟩ := linkUnits_answers wf covered legible options log
      exact ⟨linked, h⟩
    · obtain ⟨new, hlog, errors, agrees⟩ := linkUnits_reports wf.forest h
      refine ⟨new, ?_, ?_, agrees⟩
      · rw [hlog, Log.emitAll_entries]
      · rw [hlog, Log.emitAll_errorCount errors]
  · rw [link_of_not_started stalled]
    refine ⟨fun _ _ => ⟨_, rfl⟩, fun linked h => ?_⟩
    cases h
    exact ⟨[], (List.append_nil _).symm, rfl, rfl, rfl⟩

/-- The missing adder is reported behind what the log held before. -/
theorem link_reports_stray :
    ∃ linked diagnostic, strayDesign.WellFormed strayNames ∧
      link .granted .standard strayDesign strayNames ⟨[Report.undefined "class" "pad" .dummy], 4⟩ =
        .ok linked ∧
      linked.result = .error (.unresolved .modules "adder" 0) ∧
      linked.log.entries = [Report.undefined "class" "pad" .dummy, diagnostic] ∧
      linked.log.errorCount = 5 ∧ diagnostic.code = Report.code 301 := by
  obtain ⟨returns, tells⟩ := link_reports strayDesign_wellFormed .granted .standard
    ⟨[Report.undefined "class" "pad" .dummy], 4⟩
  obtain ⟨linked, h⟩ := returns (by decide) strayDesign_legible
  obtain ⟨new, entries, count, agrees⟩ := tells linked h
  have fails : (link .granted .standard strayDesign strayNames
      ⟨[Report.undefined "class" "pad" .dummy], 4⟩).map (·.result) =
      .ok (.error (.unresolved .modules "adder" 0)) := by decide +kernel
  rw [h] at fails
  have failure : linked.result = .error (.unresolved .modules "adder" 0) := Except.ok.inj fails
  rw [Linked.Agrees, failure] at agrees
  obtain ⟨-, number, diagnostic, hnumber, rfl, code⟩ := agrees
  cases hnumber
  exact ⟨linked, diagnostic, strayDesign_wellFormed, h, failure, entries, count, code⟩

end Linkage
