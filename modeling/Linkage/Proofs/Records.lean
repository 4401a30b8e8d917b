import Linkage.Proofs.JsonText
import Linkage.Proofs.Renderings
/-!
Diagnostics as records. A record has a field for each part of its diagnostic, from which the part
can be told, and a text can be told from what it is written as, so the line of a record tells the
diagnostic. Control characters are escaped where text is written, and no other part has any.
-/
namespace Linkage

def Printed (cs : List Char) : Prop := ∀ c ∈ cs, 32 ≤ c.toNat

instance (cs : List Char) : Decidable (Printed cs) :=
  decidable_of_iff (cs.all (32 ≤ ·.toNat)) (by simp [Printed])

theorem printed_cons {c : Char} {cs : List Char} :
    Printed (c :: cs) ↔ 32 ≤ c.toNat ∧ Printed cs := List.forall_mem_cons

theorem printed_append {cs ds : List Char} : Printed (cs ++ ds) ↔ Printed cs ∧ Printed ds :=
  List.forall_mem_append

theorem isDigit_printed {c : Char} (digit : c.isDigit = true) : 32 ≤ c.toNat := by
  simp only [Char.isDigit, Bool.and_eq_true, decide_eq_true_eq, UInt32.le_iff_toNat_le] at digit
  exact Nat.le_trans (by decide) digit.1

theorem Printed.bytes {cs : List Char} (h : Printed cs) : ∀ b ∈ utf8 cs, 32 ≤ b.toNat := by
  intro b hb
  obtain ⟨c, hc, hb⟩ := List.mem_flatMap.mp hb
  have := h c hc
  have := toNat_of_mem_utf8EncodeChar hb
  omega

namespace Json

theorem eq_of_render {j j' : Json} (h : j.Plain) (h' : j'.Plain) (same : j.render = j'.render) :
    j = j' := by
  have read := parse_render h
  rw [same, parse_render h'] at read
  exact (Option.some.inj read).symm

theorem printed_escapeChar (c : Char) : Printed (escapeChar c) := by
  have unit : ∀ n < 32, Printed ['\\', 'u', '0', '0', hexDigit (n / 16), hexDigit (n % 16)] := by
    decide
  unfold escapeChar
  split
  case h_8 =>
    split
    · next control => exact unit _ control
    · next printed => exact List.forall_mem_singleton.mpr (Nat.le_of_not_lt printed)
  all_goals decide

theorem printed_quote (s : String) : Printed (quote s) := by
  have inner : Printed (s.toList.flatMap escapeChar) := fun c hc => by
    obtain ⟨d, -, hc⟩ := List.mem_flatMap.mp hc
    exact printed_escapeChar d c hc
  exact printed_cons.mpr ⟨by decide, printed_append.mpr ⟨inner, by decide⟩⟩

theorem printed_int (i : Int) : Printed (toString i).toList := by
  have digits (n : Nat) : Printed n.repr.toList := fun c hc =>
    isDigit_printed (isDigit_toDigits n c (Nat.toList_repr ▸ hc))
  rw [Int.toString_eq_repr, Int.repr_eq_if]
  split
  · exact digits _
  · rw [String.toList_append]
    exact printed_cons.mpr ⟨by decide, digits _⟩

mutual

theorem printed_chars (j : Json) : Printed j.chars := by
  cases j with
  | null => decide
  | bool b => cases b <;> decide
  | int i => exact printed_int i
  | str s => exact printed_quote s
  | arr items =>
    have inner := printed_itemChars items
    simp only [chars, printed_append, printed_cons]
    exact ⟨⟨by decide, inner⟩, by decide, List.forall_mem_nil _⟩
  | obj fields =>
    have inner := printed_fieldChars fields
    simp only [chars, printed_append, printed_cons]
    exact ⟨⟨by decide, inner⟩, by decide, List.forall_mem_nil _⟩
  | foreign => decide

theorem printed_itemChars (items : List Json) : Printed (itemChars items) := by
  match items with
  | [] => exact List.forall_mem_nil _
  | [item] => exact printed_chars item
  | item :: next :: rest =>
    simp only [itemChars, printed_append, printed_cons]
    exact ⟨printed_chars item, by decide, printed_itemChars (next :: rest)⟩

theorem printed_fieldChars (fields : List (String × Json)) : Printed (fieldChars fields) := by
  match fields with
  | [] => exact List.forall_mem_nil _
  | [(key, value)] =>
    simp only [fieldChars, printed_append, printed_cons]
    exact ⟨printed_quote key, by decide, printed_chars value⟩
  | (key, value) :: next :: rest =>
    simp only [fieldChars, printed_append, printed_cons]
    exact ⟨⟨printed_quote key, by decide, printed_chars value⟩, by decide,
      printed_fieldChars (next :: rest)⟩

end

end Json

theorem Span.record_inj {s s' : Span} (same : s.record = s'.record) : s = s' := by
  obtain ⟨⟨file⟩, start, stop⟩ := s
  obtain ⟨⟨file'⟩, start', stop'⟩ := s'
  simp only [Span.record, Json.nat, Json.obj.injEq, List.cons.injEq, Prod.mk.injEq, true_and,
    and_true, Json.int.injEq, Int.ofNat_inj] at same
  obtain ⟨rfl, rfl, rfl⟩ := same
  rfl

theorem LabelStyle.word_inj {s s' : LabelStyle} (same : s.word = s'.word) : s = s' := by
  revert same
  cases s <;> cases s' <;> decide

theorem Severity.word_inj {s s' : Severity} (same : s.word = s'.word) : s = s' := by
  revert same
  cases s <;> cases s' <;> decide

theorem Category.letter_inj {c c' : Category} (same : c.letter = c'.letter) : c = c' := by
  revert same
  cases c <;> cases c' <;> decide

theorem digitsValue_zeros (zeros : Nat) (cs : List Char) :
    Json.digitsValue (List.replicate zeros '0' ++ cs) = Json.digitsValue cs := by
  induction zeros with
  | zero => rfl
  | succ zeros ih => exact ih

theorem Code.toList_text (c : Code) : c.text.toList = c.category.letter ::
    (List.replicate (3 - (Nat.toDigits 10 c.number).length) '0' ++ Nat.toDigits 10 c.number) := by
  rw [text, String.toList_ofList, Nat.toString_eq_repr, Nat.toList_repr]
  rfl

/-- Zeros in front do not change a number, so the text of a code tells it. -/
theorem Code.text_inj {c c' : Code} (same : c.text = c'.text) : c = c' := by
  have chars := congrArg String.toList same
  rw [toList_text, toList_text, List.cons.injEq] at chars
  obtain ⟨letter, digits⟩ := chars
  have number := congrArg Json.digitsValue digits
  rw [digitsValue_zeros, digitsValue_zeros, Json.digitsValue_toDigits,
    Json.digitsValue_toDigits] at number
  cases c
  cases c'
  exact congrArg₂ _ (Category.letter_inj letter) number

theorem Span.plain_record (s : Span) : s.record.Plain := by
  simp [record, Json.nat, Json.Plain, Json.PlainFields]

def Label.Recorded (l : Label) (j : Json) : Prop :=
  ∃ location : Json, location.Plain ∧
    j = .obj [("location", location), ("message", .str l.message), ("span", l.span.record),
      ("style", .str l.style.word)]

theorem Label.Recorded.plain {l : Label} {j : Json} (h : l.Recorded j) : j.Plain := by
  obtain ⟨location, plain, rfl⟩ := h
  simp [Json.Plain, Json.PlainFields, plain, l.span.plain_record]

theorem Label.recorded_leftUnique : Relator.LeftUnique Label.Recorded := by
  rintro l l' j ⟨location, -, rfl⟩ ⟨location', -, same⟩
  simp only [Json.obj.injEq, List.cons.injEq, Prod.mk.injEq, true_and, and_true,
    Json.str.injEq] at same
  obtain ⟨-, message, span, style⟩ := same
  cases l
  cases l'
  simp only [Label.mk.injEq]
  exact ⟨Span.record_inj span, message, LabelStyle.word_inj style⟩

namespace Diagnostic

def Recorded (d : Diagnostic) (j : Json) : Prop :=
  ∃ (labels : List Json) (location : Json), List.Forall₂ Label.Recorded d.labels labels ∧
    location.Plain ∧
    j = .obj [("code", .str d.code.text), ("labels", .arr labels), ("location", location),
      ("message", .str d.message), ("notes", .arr (d.notes.map .str)),
      ("severity", .str d.severity.word), ("span", d.span.record)]

theorem Recorded.plain {d : Diagnostic} {j : Json} (h : d.Recorded j) : j.Plain := by
  obtain ⟨labels, location, each, plain, rfl⟩ := h
  have labels_plain : Json.PlainItems labels := by
    refine Json.plainItems_iff.mpr fun item hitem => ?_
    obtain ⟨l, -, recorded⟩ := forall₂_exists_left each hitem
    exact recorded.plain
  have notes_plain : Json.PlainItems (d.notes.map .str) := by
    simp [Json.plainItems_iff, Json.Plain]
  simp [Json.Plain, Json.PlainFields, labels_plain, plain, notes_plain, d.span.plain_record]

theorem recorded_leftUnique : Relator.LeftUnique Recorded := by
  rintro d d' j ⟨labels, location, each, -, rfl⟩ ⟨labels', location', each', -, same⟩
  simp only [Json.obj.injEq, List.cons.injEq, Prod.mk.injEq, true_and, and_true,
    Json.str.injEq, Json.arr.injEq] at same
  obtain ⟨code, rfl, -, message, notes, severity, span⟩ := same
  have labels_eq : d.labels = d'.labels :=
    List.left_unique_forall₂' Label.recorded_leftUnique each each'
  have notes_eq : d.notes = d'.notes :=
    List.map_injective_iff.mpr (fun _ _ => Json.str.inj) notes
  cases d
  cases d'
  simp only [Diagnostic.mk.injEq]
  exact ⟨Severity.word_inj severity, Code.text_inj code, message, Span.record_inj span, labels_eq,
    notes_eq⟩

def Unplaced (library : Library) (d : Diagnostic) (fault : Fault) : Prop :=
  ∃ span ∈ d.span :: d.labels.map Label.span, library.locate span = .error fault

variable {library : Library}

theorem locationRecord_ends (span : Span) : Ends Json.Plain
    (fun fault => library.locate span = .error fault) (locationRecord library span) := by
  rw [locationRecord]
  cases library.locate span with
  | error fault => rfl
  | ok place => cases place <;> trivial

theorem record_ends (d : Diagnostic) :
    Ends d.Recorded (d.Unplaced library) (d.record library) := by
  have labels : Ends (List.Forall₂ Label.Recorded d.labels) (d.Unplaced library)
      (d.labels.mapM (labelRecord library)) := by
    refine Ends.mapM fun l hl => ?_
    refine ((locationRecord_ends l.span).imp (fun _ plain => plain) fun fault stops => ?_).bind
      fun location plain => ⟨location, plain, rfl⟩
    exact ⟨l.span, List.mem_cons_of_mem _ (List.mem_map_of_mem hl), stops⟩
  refine labels.bind fun labels each => ?_
  refine ((locationRecord_ends d.span).imp (fun _ plain => plain) fun fault stops => ?_).bind
    fun location plain => ⟨labels, location, each, plain, rfl⟩
  exact ⟨d.span, List.mem_cons_self, stops⟩

theorem recordLine_ends (d : Diagnostic) :
    Ends (fun text => ∃ j, d.Recorded j ∧ text = j.render) (d.Unplaced library)
      (d.recordLine library) :=
  d.record_ends.bind fun j recorded => ⟨j, recorded, rfl⟩

end Diagnostic

/-- The line of a record tells its diagnostic, and it is one line, unless a place cannot be told. -/
theorem record_lines_faithful (library : Library) :
    (∀ (d d' : Diagnostic) (text : String), d.recordLine library = .ok text →
      d'.recordLine library = .ok text → d = d') ∧
    ∀ d : Diagnostic, Ends (fun text => ∀ b ∈ text.toUTF8.data.toList, 32 ≤ b.toNat)
      (d.Unplaced library) (d.recordLine library) := by
  constructor
  · intro d d' text written written'
    have ends : Ends _ (d.Unplaced library) (.ok text) := written ▸ d.recordLine_ends
    have ends' : Ends _ (d'.Unplaced library) (.ok text) := written' ▸ d'.recordLine_ends
    obtain ⟨j, recorded, rfl⟩ := ends
    obtain ⟨j', recorded', same⟩ := ends'
    rw [Json.eq_of_render recorded.plain recorded'.plain same] at recorded
    exact Diagnostic.recorded_leftUnique recorded recorded'
  · intro d
    refine d.recordLine_ends.imp (fun text ⟨j, _, written⟩ => ?_) fun _ stops => stops
    rw [written, toUTF8_eq, Json.render, String.toList_ofList]
    exact j.printed_chars.bytes

def markedDiagnostic : Diagnostic where
  severity := .warning
  code := ⟨.warning, 7⟩
  message := "tab\tin \"λ\"\n"
  span := ⟨⟨0⟩, 1, 4⟩
  labels := [⟨⟨⟨3⟩, 0, 2⟩, "\x1f", .primary⟩]
  notes := ["first\r", "second"]

theorem record_lines_faithful_marked : ∃ text,
    markedDiagnostic.recordLine (oneFile "module a\n") = .ok text ∧
      (∀ b ∈ text.toUTF8.data.toList, 32 ≤ b.toNat) ∧
      ∀ d : Diagnostic, d.recordLine (oneFile "module a\n") = .ok text → d = markedDiagnostic := by
  obtain ⟨unique, single⟩ := record_lines_faithful (oneFile "module a\n")
  have clear : ∀ span ∈ markedDiagnostic.span :: markedDiagnostic.labels.map Label.span,
      ¬ (oneFile "module a\n").Overruns span := by
    have short : (oneFile "module a\n").Short := short_oneFile (by decide)
    have early : ∀ span ∈ markedDiagnostic.span :: markedDiagnostic.labels.map Label.span,
        span.start ≠ wordBound 32 - 1 := by decide
    intro span hspan overruns
    obtain ⟨-, -, last, -⟩ := short.overruns_iff.mp overruns
    exact early span hspan last
  obtain ⟨text, written⟩ :=
    (markedDiagnostic.shows_recordLine (oneFile "module a\n") (by decide)).exists_ok clear
  have line := single markedDiagnostic
  rw [written] at line
  exact ⟨text, written, line, fun d same => unique d markedDiagnostic text same written⟩

end Linkage
