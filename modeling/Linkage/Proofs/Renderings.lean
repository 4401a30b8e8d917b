import Linkage.Diagnostic.Record
import Linkage.Diagnostic.Terminal
import Linkage.Proofs.Outcomes
import Linkage.Proofs.Positions
/-!
Whether a diagnostic can be shown. Offsets come unchecked, and what can leave its word is the number
behind the last one there is, as a column or as the number of a line. In a text that leaves room in
32 bits only the column can, for the last offset of all and on a line that starts with the text.
-/
namespace Linkage

namespace SourceFile

def Overruns (f : SourceFile) (offset : Nat) : Prop :=
  ∃ line start, f.Finds offset line start ∧
    (line % wordBound 32 = wordBound 32 - 1 ∨ start = 0 ∧ offset = wordBound 32 - 1)

/-- What a position can stop at. A line number takes a text that fills the word. -/
def Stops (f : SourceFile) (fault : Fault) : Prop :=
  fault = .columnOverflow ∨ fault = .countOverflow ∧ wordBound 32 - 1 ≤ f.bytes.length

variable {f : SourceFile} {offset line start : Nat}

theorem Finds.overruns_iff (finds : f.Finds offset line start) : f.Overruns offset ↔
    line % wordBound 32 = wordBound 32 - 1 ∨ start = 0 ∧ offset = wordBound 32 - 1 := by
  constructor
  · rintro ⟨line', start', finds', leaves⟩
    obtain ⟨rfl, rfl⟩ := finds.unique finds'
    exact leaves
  · exact fun leaves => ⟨line, start, finds, leaves⟩

theorem Finds.line_le (finds : f.Finds offset line start) : line ≤ f.bytes.length := by
  obtain ⟨inside, -⟩ := Array.getElem?_eq_some_iff.mp finds.held
  rw [lineTable, List.size_toArray, List.length_cons, length_startsBehind] at inside
  exact (Nat.le_of_lt_succ inside).trans List.count_le_length

/-- Either there is a position, in numbers that fit into their words, or one of them overruns. -/
theorem position_ends (f : SourceFile) (word : offset < wordBound 32) :
    Ends (fun place => ¬ f.Overruns offset ∧ (1 ≤ place.1 ∧ place.1 < wordBound 32) ∧
        1 ≤ place.2 ∧ place.2 < wordBound 32)
      (fun fault => f.Overruns offset ∧ f.Stops fault) (f.position offset) := by
  obtain ⟨line, start, finds⟩ := f.exists_finds offset
  have inWord := Nat.mod_lt line (wordBound_pos 32)
  rw [finds.position_eq, finds.overruns_iff]
  by_cases number : line % wordBound 32 + 1 < wordBound 32
  · rw [sumWithin_eq_ok _ number, ok_bind]
    by_cases column : offset - start + 1 < wordBound 32
    · rw [sumWithin_eq_ok _ column, ok_bind]
      exact ⟨by omega, ⟨Nat.le_add_left 1 _, number⟩, Nat.le_add_left 1 _, column⟩
    · rw [sumWithin_eq_error _ (Nat.le_of_not_lt column)]
      exact ⟨.inr (by omega), .inl rfl⟩
  · rw [sumWithin_eq_error _ (Nat.le_of_not_lt number)]
    have least := (Nat.mod_le line (wordBound 32)).trans finds.line_le
    exact ⟨.inl (by omega), .inr ⟨rfl, by omega⟩⟩

/-- Where the text leaves room in 32 bits, it takes the last offset and a text of one line. -/
theorem overruns_iff (short : f.bytes.length < wordBound 32 - 1) :
    f.Overruns offset ↔ offset = wordBound 32 - 1 ∧ 10 ∉ f.bytes := by
  obtain ⟨before, line, after, around, low, high⟩ := exists_around f.content.toList offset
  have few := around.count_le
  rw [(around.finds short low high).overruns_iff, f.bytes_eq, feed_mem_utf8, length_utf8_eq_zero,
    Nat.mod_eq_of_lt (by omega)]
  constructor
  · rintro (number | ⟨rfl, rfl⟩)
    · omega
    · refine ⟨rfl, ?_⟩
      rcases high with high | rfl
      · have total := congrArg List.length around.bytes_eq
        rw [List.length_append] at total
        omega
      · rw [around.whole, List.append_nil]
        exact around.plain
  · rintro ⟨rfl, plain⟩
    refine .inr ⟨around.closed.resolve_right fun last => plain ?_, rfl⟩
    rw [around.whole, List.append_assoc]
    exact List.mem_append_left _ (List.mem_of_getLast? last)

theorem lineAt_ends (short : f.bytes.length < wordBound 32 - 1) (word : offset < wordBound 32) :
    Ends (fun _ => ¬ f.Overruns offset) (fun fault => f.Overruns offset ∧ f.Stops fault)
      (f.lineAt offset) := by
  obtain ⟨before, line, after, around, low, high⟩ := exists_around f.content.toList offset
  have few := around.count_le
  rw [around.lineAt_eq short low high, (around.finds short low high).overruns_iff,
    Nat.mod_eq_of_lt (by omega)]
  by_cases column : offset - (utf8 before).length + 1 < wordBound 32
  · rw [sumWithin_eq_ok _ column]
    change ¬ _
    omega
  · rw [sumWithin_eq_error _ (Nat.le_of_not_lt column)]
    exact ⟨.inr (by omega), .inl rfl⟩

end SourceFile

namespace Library

def Overruns (library : Library) (span : Span) : Prop :=
  ∃ file, library.file? span.file = some file ∧ file.Overruns span.start

def StopsAt (library : Library) (span : Span) (fault : Fault) : Prop :=
  ∃ file, library.file? span.file = some file ∧ file.Overruns span.start ∧ file.Stops fault

/-- A computation goes through unless the place of one of some spans cannot be told. -/
def Shows {α : Type} (library : Library) (spans : List Span) (x : Checked α) : Prop :=
  Ends (fun _ => ∀ span ∈ spans, ¬ library.Overruns span)
    (fun fault => ∃ span ∈ spans, library.StopsAt span fault) x

/-- The texts of all files leave room in 32 bits. -/
def Short (library : Library) : Prop :=
  ∀ file ∈ library.files, file.bytes.length < wordBound 32 - 1

variable {library : Library} {span : Span} {file : SourceFile}

theorem overruns_iff_of_known (known : library.file? span.file = some file) :
    library.Overruns span ↔ file.Overruns span.start := by
  simp [Overruns, known]

theorem not_overruns_of_unknown (unknown : library.file? span.file = none) :
    ¬ library.Overruns span := by
  simp [Overruns, unknown]

theorem mem_files (known : library.file? span.file = some file) : file ∈ library.files :=
  Array.mem_of_getElem? known

theorem Short.overruns_iff (short : library.Short) : library.Overruns span ↔
    ∃ file, library.file? span.file = some file ∧ span.start = wordBound 32 - 1 ∧
      10 ∉ file.bytes :=
  exists_congr fun file => and_congr_right fun known =>
    file.overruns_iff (short file (mem_files known))

theorem Short.eq_columnOverflow (short : library.Short) {fault : Fault}
    (stops : library.StopsAt span fault) : fault = .columnOverflow := by
  obtain ⟨file, known, -, column | ⟨-, full⟩⟩ := stops
  · exact column
  · exact absurd (short file (mem_files known)) (Nat.not_lt_of_le full)

theorem locate_ends (word : span.start < wordBound 32) :
    Ends (fun place => ¬ library.Overruns span ∧ ∀ p ∈ place,
        (1 ≤ p.line ∧ p.line < wordBound 32) ∧ 1 ≤ p.column ∧ p.column < wordBound 32)
      (library.StopsAt span) (library.locate span) := by
  rw [locate]
  cases known : library.file? span.file with
  | none => exact ⟨not_overruns_of_unknown known, fun p h => nomatch h⟩
  | some file =>
    rw [overruns_iff_of_known known]
    have ends := (file.position_ends word).imp (fun _ good => good)
      fun fault ⟨overruns, stops⟩ => (⟨file, known, overruns, stops⟩ : library.StopsAt span fault)
    refine ends.bind fun place ⟨shown, words⟩ => ⟨shown, fun p hp => ?_⟩
    cases hp
    exact words

theorem shows_single {α : Type} {x : Checked α}
    (h : Ends (fun _ => ¬ library.Overruns span) (library.StopsAt span) x) :
    library.Shows [span] x :=
  h.imp (fun _ shown => List.forall_mem_singleton.mpr shown)
    fun _ stops => ⟨span, List.mem_singleton_self span, stops⟩

theorem shows_locate (word : span.start < wordBound 32) :
    library.Shows [span] (library.locate span) :=
  shows_single ((locate_ends word).imp (fun _ good => good.1) fun _ => id)

theorem Shows.congr {α : Type} {spans others : List Span} {x : Checked α}
    (h : library.Shows spans x) (same : ∀ span, span ∈ spans ↔ span ∈ others) :
    library.Shows others x :=
  h.imp (fun _ good span hspan => good span ((same span).mpr hspan))
    fun _ ⟨span, hspan, stops⟩ => ⟨span, (same span).mp hspan, stops⟩

theorem Shows.exists_ok {α : Type} {spans : List Span} {x : Checked α} (h : library.Shows spans x)
    (clear : ∀ span ∈ spans, ¬ library.Overruns span) : ∃ a, x = .ok a := by
  cases x with
  | ok a => exact ⟨a, rfl⟩
  | error fault =>
    obtain ⟨span, hspan, file, known, overruns, -⟩ := h
    exact absurd ⟨file, known, overruns⟩ (clear span hspan)

theorem Shows.eq_error {α : Type} {spans : List Span} {x : Checked α} (h : library.Shows spans x)
    (short : library.Short) (hspan : span ∈ spans) (overruns : library.Overruns span) :
    x = .error .columnOverflow := by
  cases x with
  | ok a => exact absurd overruns (h span hspan)
  | error fault =>
    obtain ⟨_, _, stops⟩ := h
    exact congrArg _ (short.eq_columnOverflow stops)

theorem Shows.bind {α β : Type} {spans others : List Span} {x : Checked α} {f : α → Checked β}
    (h : library.Shows spans x) (next : ∀ a, library.Shows others (f a)) :
    library.Shows (spans ++ others) (x >>= f) := by
  cases x with
  | error fault =>
    obtain ⟨span, hspan, stops⟩ := h
    exact ⟨span, List.mem_append_left _ hspan, stops⟩
  | ok a =>
    exact (next a).imp (fun _ good => List.forall_mem_append.mpr ⟨h, good⟩)
      fun fault ⟨span, hspan, stops⟩ => ⟨span, List.mem_append_right _ hspan, stops⟩

theorem Shows.map {α β : Type} {spans : List Span} {x : Checked α} (h : library.Shows spans x)
    (f : α → β) : library.Shows spans (x >>= fun a => .ok (f a)) := by
  cases x with
  | error fault => exact h
  | ok a => exact h

theorem Shows.mapM {α : Type} {f : Label → Checked α} {labels : List Label}
    (each : ∀ label ∈ labels, library.Shows [label.span] (f label)) :
    library.Shows (labels.map Label.span) (labels.mapM f) := by
  induction labels with
  | nil => exact fun span h => nomatch h
  | cons label rest ih =>
    obtain ⟨first, others⟩ := List.forall_mem_cons.mp each
    rw [List.mapM_cons]
    exact first.bind fun shown => (ih others).map (shown :: ·)

end Library

namespace Diagnostic

variable {library : Library} {span : Span}

theorem shows_locationRecord (word : span.start < wordBound 32) :
    library.Shows [span] (locationRecord library span) :=
  (Library.shows_locate word).map _

theorem shows_excerpt (short : library.Short) (word : span.start < wordBound 32)
    (caption : String) : library.Shows [span] (excerpt library span caption) := by
  refine Library.shows_single ((Library.locate_ends word).bind fun place ⟨shown, words⟩ => ?_)
  cases place with
  | none => exact shown
  | some place =>
    cases known : library.file? span.file with
    | none => exact shown
    | some file =>
      have ends := (file.lineAt_ends (short file (Library.mem_files known)) word).imp
        (fun _ good => good) fun fault ⟨overruns, stops⟩ =>
          (⟨file, known, overruns, stops⟩ : library.StopsAt span fault)
      refine ends.bind fun text _ => ?_
      obtain ⟨-, first, -⟩ := words place rfl
      rw [difference_eq_ok first]
      exact shown

theorem shows_terminal (short : library.Short) (d : Diagnostic)
    (words : ∀ span ∈ d.span :: d.secondaryLabels.map Label.span, span.start < wordBound 32)
    (color : Bool) :
    library.Shows (d.span :: d.secondaryLabels.map Label.span) (d.terminal color library) := by
  obtain ⟨first, others⟩ := List.forall_mem_cons.mp words
  let note := paint color "1;36" "note"
  have further := Library.Shows.mapM fun label hlabel =>
    (shows_excerpt short (others _ (List.mem_map_of_mem hlabel)) "").map
      (s!"{note}: {label.message}" :: ·)
  exact ((shows_excerpt short first d.caption).bind fun main => further.map _).map _

theorem shows_recordLine (library : Library) (d : Diagnostic)
    (words : ∀ span ∈ d.span :: d.labels.map Label.span, span.start < wordBound 32) :
    library.Shows (d.span :: d.labels.map Label.span) (d.recordLine library) := by
  obtain ⟨first, others⟩ := List.forall_mem_cons.mp words
  have further : library.Shows (d.labels.map Label.span) (d.labels.mapM (labelRecord library)) :=
    Library.Shows.mapM fun label hlabel =>
      (shows_locationRecord (others _ (List.mem_map_of_mem hlabel))).map _
  have record : library.Shows (d.labels.map Label.span ++ [d.span]) (d.record library) :=
    further.bind fun labels => (shows_locationRecord first).map _
  refine (record.congr fun span => ?_).map _
  rw [List.mem_append, List.mem_singleton, List.mem_cons, or_comm]

end Diagnostic

/-- Spans with any offsets are located and shown in numbers that fit into their words, unless the
line number or the column of one overruns, and nothing else stops a rendering. In texts that leave
room in 32 bits that takes the last offset there is, in a text without a line feed. -/
theorem renderings_stop_at_overrun (library : Library) (d : Diagnostic)
    (words : ∀ span ∈ d.span :: d.labels.map Label.span, span.start < wordBound 32) :
    (∀ span, span.start < wordBound 32 →
      Ends (fun place => ¬ library.Overruns span ∧ ∀ p ∈ place,
          (1 ≤ p.line ∧ p.line < wordBound 32) ∧ 1 ≤ p.column ∧ p.column < wordBound 32)
        (library.StopsAt span) (library.locate span)) ∧
    library.Shows (d.span :: d.labels.map Label.span) (d.recordLine library) ∧
    (library.Short →
      (∀ color, library.Shows (d.span :: d.secondaryLabels.map Label.span)
        (d.terminal color library)) ∧
      (∀ span fault, library.StopsAt span fault → fault = .columnOverflow) ∧
      ∀ span, library.Overruns span ↔ ∃ file, library.file? span.file = some file ∧
        span.start = wordBound 32 - 1 ∧ 10 ∉ file.bytes) := by
  refine ⟨fun span word => Library.locate_ends word, d.shows_recordLine library words, fun short =>
    ⟨fun color => Diagnostic.shows_terminal short d (fun span hspan => words span ?_) color,
      fun span fault stops => short.eq_columnOverflow stops, fun span => short.overruns_iff⟩⟩
  rcases List.mem_cons.mp hspan with rfl | hspan
  · exact List.mem_cons_self
  · obtain ⟨label, hlabel, rfl⟩ := List.mem_map.mp hspan
    exact List.mem_cons_of_mem _ (List.mem_map_of_mem (List.mem_of_mem_filter hlabel))

def oneFile (content : String) : Library := ⟨#[⟨"units/a.mlir", content⟩]⟩

def farDiagnostic : Diagnostic := .error ⟨.error, 301⟩ "stray" ⟨⟨0⟩, 4294967295, 4294967295⟩

theorem short_oneFile {content : String}
    (short : (SourceFile.mk "units/a.mlir" content).bytes.length < wordBound 32 - 1) :
    (oneFile content).Short := fun file hfile => by
  rwa [List.mem_singleton.mp (Array.mem_toList_iff.mpr hfile)]

theorem renderings_stop_at_overrun_far :
    (∀ span ∈ farDiagnostic.span :: farDiagnostic.labels.map Label.span,
      span.start < wordBound 32) ∧ (oneFile "module\n").Short ∧
      ∃ text, farDiagnostic.terminal false (oneFile "module\n") = .ok text := by
  have words : ∀ span ∈ farDiagnostic.span :: farDiagnostic.labels.map Label.span,
      span.start < wordBound 32 := by decide
  have short : (oneFile "module\n").Short := short_oneFile (by decide)
  obtain ⟨-, -, shown⟩ := renderings_stop_at_overrun (oneFile "module\n") farDiagnostic words
  obtain ⟨terminal, -, overruns⟩ := shown short
  refine ⟨words, short, (terminal false).exists_ok fun span hspan h => ?_⟩
  rw [List.mem_singleton.mp hspan] at h
  obtain ⟨file, known, -, plain⟩ := (overruns _).mp h
  cases known
  exact plain (by decide)

/-- In a text without a line feed no column is left for it. -/
theorem rendering_overruns_bare :
    (oneFile "").locate farDiagnostic.span = .error .columnOverflow ∧
      farDiagnostic.terminal false (oneFile "") = .error .columnOverflow ∧
      farDiagnostic.recordLine (oneFile "") = .error .columnOverflow := by
  have short : (oneFile "").Short := short_oneFile (by decide)
  have overruns : (oneFile "").Overruns farDiagnostic.span :=
    short.overruns_iff.mpr ⟨_, rfl, rfl, by decide⟩
  have words : ∀ span ∈ [farDiagnostic.span], span.start < wordBound 32 := by decide
  have word : farDiagnostic.span.start < wordBound 32 := by decide
  exact ⟨(Library.shows_locate word).eq_error short (List.mem_singleton_self _) overruns,
    (Diagnostic.shows_terminal short farDiagnostic words false).eq_error short
      List.mem_cons_self overruns,
    (farDiagnostic.shows_recordLine (oneFile "") words).eq_error short
      List.mem_cons_self overruns⟩

end Linkage
