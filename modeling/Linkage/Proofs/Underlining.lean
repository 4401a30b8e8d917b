import Linkage.Diagnostic.Terminal
import Linkage.Proofs.Outcomes
import Linkage.Proofs.Positions
/-!
Carets under the text that a diagnostic is about. In a line of characters of one byte each, a column
counts the characters before it, so the indent is as wide as what stands before the span in its
line, and the row of carets starts with as many blanks as the row of the line has for its number.
-/
namespace Linkage

def Ascii (cs : List Char) : Prop := ∀ c ∈ cs, c.toNat < 128

instance (cs : List Char) : Decidable (Ascii cs) :=
  decidable_of_iff (cs.all (·.toNat < 128)) (by simp [Ascii])

theorem utf8_of_ascii {cs : List Char} (ascii : Ascii cs) :
    utf8 cs = cs.map fun c => UInt8.ofNat c.toNat := by
  induction cs with
  | nil => rfl
  | cons c cs ih =>
    obtain ⟨first, others⟩ := List.forall_mem_cons.mp ascii
    have one : String.utf8EncodeChar c = [UInt8.ofNat c.toNat] := by
      have small : c.val.toNat ≤ 127 := Nat.le_of_lt_succ first
      simp only [String.utf8EncodeChar, small, if_true]
      rfl
    rw [utf8, List.flatMap_cons, one, ← utf8, ih others]
    rfl

theorem exists_kept {left shown right kept : List Char} {returns : Nat}
    (same : left ++ shown ++ right = kept ++ List.replicate returns '\r') (filled : shown ≠ [])
    (plain : '\r' ∉ shown) : ∃ rest, kept = left ++ shown ++ rest := by
  rcases List.append_eq_append_iff.mp same with ⟨rest, hkept, -⟩ | ⟨cut, hleft, hreturns⟩
  · exact ⟨rest, hkept⟩
  · rcases List.eq_nil_or_concat cut with rfl | ⟨init, c, rfl⟩
    · exact ⟨[], by rw [hleft, List.append_nil, List.append_nil]⟩
    · have return_ : c = '\r' := by
        refine List.eq_of_mem_replicate (n := returns) ?_
        rw [hreturns]
        simp
      have last := congrArg List.getLast? hleft
      rw [List.getLast?_append_of_ne_nil _ filled] at last
      refine absurd (List.mem_of_getLast? (last.trans ?_)) plain
      simp [return_]

namespace SourceFile

def bytesOf (f : SourceFile) (span : Span) : List UInt8 :=
  (f.bytes.drop span.start).take span.length

namespace StandsOn

variable {f : SourceFile} {span : Span} {before line after : List Char}

theorem drop_bytes (stands : f.StandsOn span.start before line after) :
    f.bytes.drop span.start =
      (utf8 line).drop (span.start - (utf8 before).length) ++ utf8 after := by
  have high := stands.high
  rw [length_utf8_append] at high
  conv_lhs => rw [← Nat.add_sub_cancel' stands.low]
  rw [stands.bytes_eq, utf8_append, List.append_assoc, List.drop_length_add_append,
    List.drop_append_of_le_length (by omega)]

theorem stop_le (stands : f.StandsOn span.start before line after)
    (inside : span.stop ≤ f.bytes.length) (plain : 10 ∉ f.bytesOf span) :
    span.stop ≤ (utf8 (before ++ line)).length := by
  have high := stands.high
  by_contra past
  rcases stands.ends with rfl | ⟨rest, rfl⟩
  · rw [stands.bytes_eq] at inside
    simp [utf8] at inside past
    omega
  · refine plain ?_
    rw [length_utf8_append] at past high
    have reached : ∃ more, span.length =
        ((utf8 line).drop (span.start - (utf8 before).length)).length + (more + 1) :=
      ⟨span.stop - (utf8 before).length - (utf8 line).length - 1, by
        rw [List.length_drop, Span.length]
        have := stands.low
        omega⟩
    obtain ⟨more, reached⟩ := reached
    rw [bytesOf, stands.drop_bytes, reached, List.take_length_add_append]
    exact List.mem_append_right _ List.mem_cons_self

theorem exists_shown (stands : f.StandsOn span.start before line after) (ascii : Ascii line)
    (filled : span.start ≤ span.stop) (inside : span.stop ≤ f.bytes.length)
    (plain : 10 ∉ f.bytesOf span) : ∃ left shown right, line = left ++ shown ++ right ∧
      (utf8 before).length + left.length = span.start ∧ shown.length = span.length ∧
      utf8 shown = f.bytesOf span := by
  have low := stands.low
  have stop := stands.stop_le inside plain
  have bytes := utf8_of_ascii ascii
  have size : (utf8 line).length = line.length := by rw [bytes, List.length_map]
  rw [length_utf8_append, size] at stop
  have fits : span.length ≤ (line.drop (span.start - (utf8 before).length)).length := by
    rw [List.length_drop, Span.length]
    omega
  refine ⟨line.take (span.start - (utf8 before).length),
    (line.drop (span.start - (utf8 before).length)).take span.length,
    (line.drop (span.start - (utf8 before).length)).drop span.length, ?_, ?_,
    List.length_take_of_le fits, ?_⟩
  · rw [List.append_assoc, List.take_append_drop, List.take_append_drop]
  · rw [List.length_take_of_le (by omega)]
    omega
  · have part : Ascii ((line.drop (span.start - (utf8 before).length)).take span.length) :=
      fun c hc => ascii c (List.mem_of_mem_drop (List.mem_of_mem_take hc))
    rw [utf8_of_ascii part, List.map_take, List.map_drop, ← bytes, bytesOf, stands.drop_bytes,
      List.take_append_of_le_length]
    rwa [bytes, List.length_drop, List.length_map, ← List.length_drop]

/-- What is shown of the line is the characters before the span, its own, and what is left behind
them when carriage returns at the end are taken off. -/
theorem exists_parts (stands : f.StandsOn span.start before line after) (ascii : Ascii line)
    (filled : span.start < span.stop) (inside : span.stop ≤ f.bytes.length)
    (plain : ∀ b ∈ f.bytesOf span, b ≠ 10 ∧ b ≠ 13) : ∃ left shown right returns,
      line = left ++ shown ++ right ++ List.replicate returns '\r' ∧
      (left ++ shown ++ right).getLast? ≠ some '\r' ∧
      (line.reverse.dropWhile (· == '\r')).reverse = left ++ shown ++ right ∧
      (utf8 before).length + left.length = span.start ∧ shown.length = span.length ∧
      utf8 shown = f.bytesOf span := by
  obtain ⟨left, shown, right, whole, start, size, text⟩ :=
    stands.exists_shown ascii (Nat.le_of_lt filled) inside fun feed => (plain 10 feed).1 rfl
  obtain ⟨kept, returns, trimmed, split, last⟩ := exists_returns line
  have nonempty : shown ≠ [] := by
    rintro rfl
    rw [Span.length, List.length_nil] at size
    omega
  have returnless : '\r' ∉ shown := by
    intro h
    refine (plain 13 ?_).2 rfl
    rw [← text]
    exact List.mem_flatMap.mpr ⟨'\r', h, by decide⟩
  obtain ⟨rest, rfl⟩ := exists_kept (whole.symm.trans split) nonempty returnless
  exact ⟨left, shown, rest, returns, split, last, trimmed, start, size, text⟩

theorem placed (stands : f.StandsOn span.start before line after) (uncut : f.Uncut)
    (word : span.start + 1 < wordBound 32) :
    f.position span.start = .ok (before.count '\n' + 1, span.start - (utf8 before).length + 1) ∧
      f.lineAt span.start =
        .ok (String.ofList (line.reverse.dropWhile (· == '\r')).reverse) := by
  have low := stands.low
  have few : before.count '\n' ≤ (utf8 before).length := count_utf8 before ▸ List.count_le_length
  have numbered : before.count '\n' + 1 < wordBound 32 := by omega
  have column : span.start - (utf8 before).length + 1 < wordBound 32 := by omega
  rw [stands.position_of_uncut uncut numbered low (.inl stands.high),
    stands.lineAt_of_uncut uncut numbered low (.inl stands.high), sumWithin_eq_ok _ column]
  exact ⟨rfl, rfl⟩

end StandsOn

end SourceFile

/-- A row has carets exactly under a stretch of the row above, as far as the end of that stretch,
and then `tail`. -/
structure CaretsUnder (front shown tail row : List Char) : Prop where
  caret_iff : ∀ i < (front ++ shown).length, row[i]? = some '^' ↔ front.length ≤ i
  behind : row.drop (front ++ shown).length = tail

theorem caretsUnder_of_blanks {front shown tail blanks : List Char}
    (same : blanks.length = front.length) (blank : '^' ∉ blanks) :
    CaretsUnder front shown tail (blanks ++ (List.replicate shown.length '^' ++ tail)) where
  caret_iff i below := by
    rw [List.length_append] at below
    rcases Nat.lt_or_ge i front.length with less | reached
    · rw [List.getElem?_append_left (by omega)]
      exact ⟨fun caret => absurd (List.mem_of_getElem? caret) blank, fun h => by omega⟩
    · rw [List.getElem?_append_right (by omega), List.getElem?_append_left (by simp; omega),
        List.getElem?_replicate, if_pos (by omega)]
      exact ⟨fun _ => reached, fun _ => rfl⟩
  behind := by
    rw [List.length_append, ← same, List.drop_length_add_append]
    exact List.drop_left' List.length_replicate

theorem toString_string (s : String) : toString s = s := rfl

theorem length_repr (n : Nat) : n.repr.length = (Nat.toDigits 10 n).length := by
  rw [← Nat.toList_repr, String.length_toList]

theorem not_mem_digits {c : Char} (other : c.isDigit = false) (n : Nat) :
    c ∉ Nat.toDigits 10 n := fun h => by
  rw [Nat.isDigit_of_mem_toDigits (by decide) (by decide) h] at other
  cases other

namespace Diagnostic

variable {library : Library} {d : Diagnostic} {file : SourceFile} {number column : Nat}

def behindCarets (d : Diagnostic) : List Char :=
  if d.caption.isEmpty then [] else ' ' :: d.caption.toList

/-- The rows of an excerpt: the place, a gap, the line at the place behind its number, and carets
behind as many blanks as the number has digits and the column has characters before it. -/
structure Excerpt (d : Diagnostic) (file : SourceFile) (number column : Nat)
    (text location gap source carets : List Char) : Prop where
  location_eq : location = (s!"  --> {file.path}:{number}:{column}").toList
  gap_eq : gap = List.replicate (toString number).length ' ' ++ [' ', '|']
  source_eq : source = (s!"{number} | ").toList ++ text
  carets_eq : carets = List.replicate (toString number).length ' ' ++ [' ', '|', ' '] ++
    List.replicate (column - 1) ' ' ++
      (List.replicate (max d.span.length 1) '^' ++ d.behindCarets)

theorem excerpt_eq {text : String} (known : library.file? d.span.file = some file)
    (place : file.position d.span.start = .ok (number, column)) (positive : 1 ≤ column)
    (shown : file.lineAt d.span.start = .ok text) : ∃ location gap source carets,
      excerpt library d.span d.caption = .ok [location, gap, source, carets] ∧
      d.Excerpt file number column text.toList location.toList gap.toList source.toList
        carets.toList := by
  have located : library.locate d.span = .ok (some ⟨file.path, number, column⟩) := by
    simp only [Library.locate, known, place]
    rfl
  simp only [excerpt, known, located, shown, ok_bind, difference_eq_ok positive]
  refine ⟨_, _, _, _, rfl, ?_, ?_, ?_, ?_⟩
  · simp only [Place.render, String.append_assoc]
    rfl
  · simp [toString_string, String.toList_append]
  · simp [toString_string, String.toList_append]
  · rw [behindCarets]
    split <;> simp [toString_string, String.toList_append]

theorem Excerpt.feed_not_mem {text location gap source carets : List Char}
    (h : d.Excerpt file number column text location gap source carets)
    (path : '\n' ∉ file.path.toList) (caption : '\n' ∉ d.caption.toList) (plain : '\n' ∉ text) :
    ∀ row ∈ [location, gap, source, carets], '\n' ∉ row := by
  have digits := not_mem_digits (show Char.isDigit '\n' = false from rfl)
  have behind : '\n' ∉ d.behindCarets := by
    unfold behindCarets
    split <;> simp [caption]
  simp only [List.forall_mem_cons, h.location_eq, h.gap_eq, h.source_eq, h.carets_eq]
  refine ⟨?_, ?_, ?_, ?_, ?_⟩
  · simp [toString_string, String.toList_append, path, digits]
  · simp
  · simp [toString_string, String.toList_append, digits, plain]
  · simp [behind]
  · simp

theorem terminal_ends {rows : List String} (main : excerpt library d.span d.caption = .ok rows)
    (color : Bool) :
    Ends (fun output => ∃ rest, output.toList =
        ((d.header color :: rows).flatMap fun row => row.toList ++ ['\n']) ++ rest)
      (fun fault => ∃ label ∈ d.secondaryLabels, excerpt library label.span "" = .error fault)
      (d.terminal color library) := by
  have all : Ends (fun all => ∃ more, all = d.header color :: rows ++ more)
      (fun fault => ∃ label ∈ d.secondaryLabels, excerpt library label.span "" = .error fault)
      (d.terminalRows color library) := by
    rw [terminalRows, main, ok_bind]
    refine (Ends.mapM (R := fun _ _ => True) fun label hlabel => ?_).bind fun further _ =>
      ⟨_, List.append_assoc _ _ _⟩
    cases shown : excerpt library label.span "" with
    | error fault => exact ⟨label, hlabel, shown⟩
    | ok rows => trivial
  refine all.bind fun _ ⟨more, hall⟩ => ⟨more.flatMap fun row => row.toList ++ ['\n'], ?_⟩
  rw [hall, String.toList_join, List.flatMap_map, List.flatMap_append]
  simp [String.toList_append]

theorem header_eq (d : Diagnostic) :
    d.header false = s!"{d.severity.word}[{d.code.text}]: {d.message}" := by
  refine String.toList_inj.mp ?_
  simp [header, paint, toString_string, String.toList_append]

theorem feed_not_mem_header (plain : '\n' ∉ d.message.toList) :
    '\n' ∉ (d.header false).toList := by
  have digits := not_mem_digits (show Char.isDigit '\n' = false from rfl) d.code.number
  have code : '\n' ∉ d.code.text.toList := by
    have letter : '\n' ≠ d.code.category.letter := by cases d.code.category <;> decide
    simp [Code.text, letter, digits]
  have word : '\n' ∉ d.severity.word.toList := by cases d.severity <;> decide
  simp [header_eq, toString_string, String.toList_append, word, code, plain]

/-- An output that starts with the header of a diagnostic, its place, a gap, the line of its span
less the carriage returns at the end, and carets under the text of the span. -/
def Underlined (d : Diagnostic) (file : SourceFile) (before line : List Char) (output : String) :
    Prop :=
  ∃ location gap source carets rest,
    let rows := [(s!"{d.severity.word}[{d.code.text}]: {d.message}").toList, location, gap, source,
      carets]
    output.toList = ['\n'].intercalate (rows ++ [rest]) ∧ (∀ row ∈ rows, '\n' ∉ row) ∧
    ∃ number column,
      number = 1 + (file.bytes.take d.span.start).count 10 ∧
      column = 1 + sinceFeed (file.bytes.take d.span.start) ∧
      location = (s!"  --> {file.path}:{number}:{column}").toList ∧
    ∃ left shown right returns,
      line = left ++ shown ++ right ++ List.replicate returns '\r' ∧
      (left ++ shown ++ right).getLast? ≠ some '\r' ∧
      (utf8 (before ++ left)).length = d.span.start ∧ utf8 shown = file.bytesOf d.span ∧
      source = (s!"{number} | ").toList ++ (left ++ shown ++ right) ∧
      CaretsUnder ((s!"{number} | ").toList ++ left) shown d.behindCarets carets

end Diagnostic

/-- On a line of characters of one byte each, carets stand under the text of a span and nowhere
else, unless the excerpt of a further place stops the output. Offsets have 32 bits. What `uncut`
leaves out are the texts of 4 GiB and more with a line that starts behind the last such offset: the
start of that line is cut off in the table of lines. -/
theorem carets_underline_span {library : Library} {d : Diagnostic} {file : SourceFile}
    {before line after : List Char} (known : library.file? d.span.file = some file)
    (uncut : file.Uncut) (stands : file.StandsOn d.span.start before line after)
    (ascii : Ascii line) (filled : d.span.start < d.span.stop)
    (inside : d.span.stop ≤ file.bytes.length) (word : d.span.stop < wordBound 32)
    (plain : ∀ b ∈ file.bytesOf d.span, b ≠ 10 ∧ b ≠ 13) (message : '\n' ∉ d.message.toList)
    (caption : '\n' ∉ d.caption.toList) (path : '\n' ∉ file.path.toList) :
    Ends (d.Underlined file before line)
      (fun fault => ∃ label ∈ d.secondaryLabels,
        Diagnostic.excerpt library label.span "" = .error fault)
      (d.terminal false library) := by
  obtain ⟨left, shown, right, returns, split, last, trimmed, start, size, text⟩ :=
    stands.exists_parts ascii filled inside plain
  obtain ⟨place, content⟩ := stands.placed uncut (by omega)
  rw [trimmed] at content
  obtain ⟨location, gap, source, carets, rows, excerpt⟩ :=
    Diagnostic.excerpt_eq known place (Nat.le_add_left 1 _) content
  rw [String.toList_ofList] at excerpt
  obtain ⟨feeds, since⟩ := stands.counts stands.low stands.high
  have kept : '\n' ∉ left ++ shown ++ right := fun h =>
    stands.plain (split ▸ List.mem_append_left _ h)
  have part : Ascii left := fun c hc => ascii c (by rw [split]; simp [hc])
  -- the column counts bytes, and the characters before the span have one byte each
  have indent : d.span.start - (utf8 before).length + 1 - 1 = left.length := by omega
  have width : max d.span.length 1 = shown.length := by
    rw [size, Span.length]
    omega
  refine (Diagnostic.terminal_ends rows false).imp (fun output ⟨more, lines⟩ => ?_)
    fun _ stops => stops
  refine ⟨location.toList, gap.toList, source.toList, carets.toList, more, ?_, ?_,
    before.count '\n' + 1, d.span.start - (utf8 before).length + 1, by rw [feeds, Nat.add_comm],
    by rw [since, Nat.add_comm], excerpt.location_eq, left, shown, right, returns, split, last, ?_,
    text, excerpt.source_eq, ?_⟩
  · rw [lines, Diagnostic.header_eq]
    simp
  · rw [← d.header_eq]
    exact List.forall_mem_cons.mpr ⟨Diagnostic.feed_not_mem_header message,
      excerpt.feed_not_mem path caption kept⟩
  · rw [length_utf8_append, utf8_of_ascii part, List.length_map, start]
  · rw [excerpt.carets_eq, indent, width]
    exact caretsUnder_of_blanks (by simp [toString_string, length_repr]) (by simp)

def returnedFile : SourceFile := ⟨"units/a.mlir", "module a\n  object @Foo\r\n"⟩

def returnedDiagnostic : Diagnostic where
  severity := .error
  code := ⟨.error, 306⟩
  message := "no class is called Foo"
  span := ⟨⟨0⟩, 18, 22⟩
  labels := [⟨⟨⟨0⟩, 18, 22⟩, "used here", .primary⟩, ⟨⟨⟨1⟩, 0, 0⟩, "not here", .secondary⟩]
  notes := []

theorem carets_underline_span_returned :
    returnedFile.Uncut ∧
      returnedFile.StandsOn 18 "module a\n".toList "  object @Foo\r".toList "\n".toList ∧
      Ascii "  object @Foo\r".toList ∧
      (∀ b ∈ returnedFile.bytesOf returnedDiagnostic.span, b ≠ 10 ∧ b ≠ 13) ∧
      ∃ output, returnedDiagnostic.terminal false ⟨#[returnedFile]⟩ = .ok output ∧
        returnedDiagnostic.Underlined returnedFile "module a\n".toList "  object @Foo\r".toList
          output := by
  have uncut : returnedFile.Uncut := SourceFile.uncut_of_short (by decide)
  have stands : returnedFile.StandsOn 18 "module a\n".toList "  object @Foo\r".toList
      "\n".toList :=
    ⟨⟨by decide, .inr (by decide), by decide, .inr ⟨[], by decide⟩⟩, by decide, by decide⟩
  have ascii : Ascii "  object @Foo\r".toList := by decide
  have plain : ∀ b ∈ returnedFile.bytesOf returnedDiagnostic.span, b ≠ 10 ∧ b ≠ 13 := by
    have text : returnedFile.bytesOf returnedDiagnostic.span = [64, 70, 111, 111] := rfl
    simp [text]
  have known : (Library.mk #[returnedFile]).file? returnedDiagnostic.span.file =
      some returnedFile := rfl
  refine ⟨uncut, stands, ascii, plain, ?_⟩
  have ends := carets_underline_span known uncut stands ascii (by decide) (by decide) (by decide)
    plain (by decide) (by decide) (by decide)
  refine (ends.imp (fun _ shown => shown) ?_).exists_ok
  rintro fault ⟨label, hlabel, stops⟩
  rw [List.mem_singleton.mp hlabel] at stops
  cases stops

end Linkage
