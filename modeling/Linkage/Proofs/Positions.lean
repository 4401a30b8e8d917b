import Linkage.Proofs.Sequence
import Linkage.Proofs.TextLines
/-!
Positions in a source text, told by counting. The halving of the table finds the place where the
offsets pass, whatever the table holds; for a text whose length leaves room in 32 bits the table
holds where the lines start, so line and column are counts of what stands before the offset, and
what is cut out for a line is what stands between two line feeds.
-/
namespace Linkage

/-- What is behind the end found does not pass, and what is before it does. At each step this holds
of the start of the stretch that is left; its end does not pass, or its last value does not. -/
theorem halve_ends {passes : Nat → Bool} {base size : Nat} (low : base = 0 ∨ passes base = true)
    (high : passes (base + size) = false ∨ 2 ≤ size ∧ passes (base + size - 1) = false) :
    passes (halve passes base size) = false ∧
      ∀ n, halve passes base size = n + 1 → passes n = true := by
  induction base, size using halve.induct passes with
  | case1 base size small last =>
    obtain ⟨rfl, last⟩ := last
    rw [halve, if_pos small, if_pos ⟨rfl, last⟩]
    refine ⟨high.resolve_right fun h => absurd h.1 (by decide), fun n hn => ?_⟩
    rwa [← Nat.succ.inj hn]
  | case2 base size small other =>
    have stops : passes base = false := by
      rcases Nat.le_one_iff_eq_zero_or_eq_one.mp small with rfl | rfl
      · exact high.resolve_right fun h => absurd h.1 (by decide)
      · exact Bool.eq_false_iff.mpr fun h => other ⟨rfl, h⟩
    have start : base = 0 := low.resolve_right (by simp [stops])
    rw [halve, if_pos small, if_neg other]
    exact ⟨stops, fun n hn => absurd (start.symm.trans hn) (Nat.succ_ne_zero n).symm⟩
  | case3 base size large middle ih =>
    rw [halve, if_neg large]
    refine ih ?_ ?_
    · cases hit : passes middle with
      | true => exact .inr hit
      | false => exact low
    · cases hit : passes middle with
      | true =>
        rw [dif_pos rfl, show middle + (size - size / 2) = base + size by omega]
        refine high.imp_right fun ⟨_, last⟩ => ⟨?_, last⟩
        -- A stretch of two would have its middle for its last value.
        have two : size ≠ 2 := by
          rintro rfl
          exact absurd (hit.symm.trans last) (by decide)
        omega
      | false =>
        rw [dif_neg Bool.false_ne_true]
        rcases Nat.mod_two_eq_zero_or_one size with even | odd
        · exact .inl (by rwa [show base + (size - size / 2) = middle by omega])
        · refine .inr ⟨by omega, ?_⟩
          rwa [show base + (size - size / 2) - 1 = middle by omega]

theorem partitionPoint_ends (table : Array Nat) (passes : Nat → Bool) :
    table[partitionPoint table passes]?.any passes = false ∧
      ∀ n, partitionPoint table passes = n + 1 → table[n]?.any passes = true := by
  have past : table[0 + table.size]?.any passes = false := by
    rw [Nat.zero_add, Array.getElem?_size, Option.any_none]
  exact @halve_ends (fun place => table[place]?.any passes) 0 table.size (.inl rfl) (.inl past)

theorem partitionPoint_append {front back : List Nat} {passes : Nat → Bool}
    (pass : ∀ v ∈ front, passes v = true) (fail : ∀ v ∈ back, passes v = false) :
    partitionPoint (front ++ back).toArray passes = front.length := by
  obtain ⟨stops, before⟩ := partitionPoint_ends (front ++ back).toArray passes
  generalize partitionPoint (front ++ back).toArray passes = place at stops before
  rw [List.getElem?_toArray] at stops
  rcases Nat.lt_trichotomy place front.length with less | rfl | more
  · rw [List.getElem?_append_left less, List.getElem?_eq_getElem less, Option.any_some,
      pass _ (List.getElem_mem less)] at stops
    cases stops
  · rfl
  · obtain ⟨n, rfl⟩ := Nat.exists_eq_add_of_lt more
    have last := before _ rfl
    rw [List.getElem?_toArray, List.getElem?_append_right (by omega), Option.any_eq_true] at last
    obtain ⟨v, hv, passed⟩ := last
    rw [fail v (List.mem_of_getElem? hv)] at passed
    cases passed

/-- What the search in the table of a file ends with: the line of an offset, and where it starts. -/
structure SourceFile.Finds (f : SourceFile) (offset line start : Nat) : Prop where
  found : partitionPoint f.lineTable (· ≤ offset) = line + 1
  held : f.lineTable[line]? = some start
  reached : start ≤ offset

/-- The search ends with a line, for any offset and any length of the text. -/
theorem SourceFile.exists_finds (f : SourceFile) (offset : Nat) :
    ∃ line start, f.Finds offset line start := by
  obtain ⟨stops, before⟩ := partitionPoint_ends f.lineTable (· ≤ offset)
  have zero : f.lineTable[0]?.any (· ≤ offset) = true := decide_eq_true (Nat.zero_le offset)
  have some : partitionPoint f.lineTable (· ≤ offset) ≠ 0 := fun none => by
    rw [none, zero] at stops
    cases stops
  obtain ⟨line, hline⟩ := Nat.exists_eq_succ_of_ne_zero some
  obtain ⟨start, held, reached⟩ := (Option.any_eq_true _ _).mp (before line hline)
  exact ⟨line, start, hline, held, of_decide_eq_true reached⟩

theorem SourceFile.Finds.unique {f : SourceFile} {offset line start line' start' : Nat}
    (h : f.Finds offset line start) (h' : f.Finds offset line' start') :
    line' = line ∧ start' = start := by
  obtain rfl : line' = line := Nat.succ.inj (h'.found.symm.trans h.found)
  exact ⟨rfl, Option.some.inj (h'.held.symm.trans h.held)⟩

theorem SourceFile.Finds.position_eq {f : SourceFile} {offset line start : Nat}
    (h : f.Finds offset line start) :
    f.position offset = (do
      let number ← sumWithin 32 .countOverflow (line % wordBound 32) 1
      let column ← sumWithin 32 .columnOverflow (offset - start) 1
      return (number, column)) := by
  have started : f.lineStart line = .ok start := by rw [SourceFile.lineStart, h.held]
  rw [SourceFile.position, h.found, difference_eq_ok (Nat.le_add_left 1 line), ok_bind,
    Nat.add_sub_cancel, started]
  simp only [ok_bind, difference_eq_ok h.reached]

theorem startsBehind_append (offset : Nat) (bs cs : List UInt8) :
    startsBehind offset (bs ++ cs) =
      startsBehind offset bs ++ startsBehind (offset + bs.length) cs := by
  induction bs generalizing offset with
  | nil => rfl
  | cons b bs ih =>
    rw [List.cons_append, startsBehind, startsBehind, ih, List.length_cons, Nat.add_assoc offset,
      Nat.add_comm 1]
    split <;> rfl

theorem startsBehind_eq_nil {offset : Nat} {bs : List UInt8} (plain : 10 ∉ bs) :
    startsBehind offset bs = [] := by
  induction bs generalizing offset with
  | nil => rfl
  | cons b bs ih =>
    rw [startsBehind, if_neg (List.ne_of_not_mem_cons plain).symm,
      ih (List.not_mem_of_not_mem_cons plain)]

theorem length_startsBehind (offset : Nat) (bs : List UInt8) :
    (startsBehind offset bs).length = bs.count 10 := by
  induction bs generalizing offset with
  | nil => rfl
  | cons b bs ih =>
    rw [startsBehind, List.count_cons]
    split
    · next feed => rw [List.length_cons, ih, feed]; rfl
    · next other => rw [ih, if_neg (by simpa using other), Nat.add_zero]

/-- Every line starts at an offset that fits into 32 bits, so that the table has none cut off. -/
def SourceFile.Uncut (f : SourceFile) : Prop :=
  ∀ i : Nat, f.bytes[i]? = some 10 → i + 1 < wordBound 32

theorem SourceFile.uncut_of_short {f : SourceFile} (short : f.bytes.length < wordBound 32 - 1) :
    f.Uncut := fun i feed => by
  obtain ⟨inside, -⟩ := List.getElem?_eq_some_iff.mp feed
  omega

theorem mem_startsBehind {offset start : Nat} {bs : List UInt8}
    (fits : ∀ i : Nat, bs[i]? = some 10 → offset + i + 1 < wordBound 32)
    (h : start ∈ startsBehind offset bs) : offset < start ∧ start ≤ offset + bs.length := by
  induction bs generalizing offset with
  | nil => cases h
  | cons b bs ih =>
    rw [List.length_cons]
    have later : start ∈ startsBehind (offset + 1) bs →
        offset < start ∧ start ≤ offset + (bs.length + 1) := fun h => by
      have := ih (fun i feed => by have := fits (i + 1) feed; omega) h
      omega
    rw [startsBehind] at h
    split at h
    · next feed =>
      rcases List.mem_cons.mp h with rfl | h
      · rw [Nat.mod_eq_of_lt (fits 0 (congrArg some feed))]
        omega
      · exact later h
    · exact later h

theorem Closed.front_getElem? {before : List Char} (closed : Closed before)
    (fits : (utf8 before).length < wordBound 32) :
    (0 :: startsBehind 0 (utf8 before))[before.count '\n']? = some (utf8 before).length := by
  rcases closed with rfl | last
  · rfl
  · obtain ⟨init, rfl⟩ := List.getLast?_eq_some_iff.mp last
    have feed : utf8 ['\n'] = [10] := by decide
    have place : (init ++ ['\n']).count '\n' = (startsBehind 0 (utf8 init)).length + 1 := by
      rw [length_startsBehind, count_utf8, List.count_append]
      rfl
    have starts : startsBehind 0 (utf8 (init ++ ['\n'])) =
        startsBehind 0 (utf8 init) ++ [(utf8 (init ++ ['\n'])).length] := by
      rw [utf8_append, feed, List.length_append, List.length_singleton] at fits ⊢
      rw [startsBehind_append, Nat.zero_add, startsBehind, if_pos rfl, Nat.mod_eq_of_lt fits,
        startsBehind]
    rw [place, List.getElem?_cons_succ, starts, List.getElem?_concat_length]

namespace Around

variable {f : SourceFile} {before line after : List Char}

theorem bytes_eq (around : Around f.content.toList before line after) :
    f.bytes = utf8 (before ++ line) ++ utf8 after := by
  rw [f.bytes_eq, around.whole, utf8_append]

theorem count_le (around : Around f.content.toList before line after) :
    before.count '\n' ≤ f.bytes.length := by
  rw [around.bytes_eq, utf8_append, ← count_utf8]
  exact List.count_le_length.trans (by simp only [List.length_append]; omega)

/-- What the table holds up to the line, and what it holds behind it. -/
theorem lineTable_eq (around : Around f.content.toList before line after) :
    f.lineTable = ((0 :: startsBehind 0 (utf8 before)) ++
      startsBehind (utf8 (before ++ line)).length (utf8 after)).toArray := by
  have plain : 10 ∉ utf8 line := mt feed_mem_utf8.mp around.plain
  rw [SourceFile.lineTable, around.bytes_eq, startsBehind_append, Nat.zero_add, utf8_append before,
    startsBehind_append, startsBehind_eq_nil plain, List.append_nil, List.cons_append]

theorem length_front (before : List Char) :
    (0 :: startsBehind 0 (utf8 before)).length = before.count '\n' + 1 := by
  rw [List.length_cons, length_startsBehind, count_utf8]

theorem feed_lt (uncut : f.Uncut) {front back : List Char}
    (whole : f.content.toList = front ++ '\n' :: back) :
    (utf8 front).length + 1 < wordBound 32 := by
  refine uncut _ ?_
  rw [f.bytes_eq, whole, utf8_append, List.getElem?_append_right (Nat.le_refl _), Nat.sub_self]
  rfl

theorem length_before_lt (around : Around f.content.toList before line after)
    (uncut : f.Uncut) : (utf8 before).length < wordBound 32 := by
  rcases around.closed with rfl | last
  · exact wordBound_pos 32
  · obtain ⟨init, rfl⟩ := List.getLast?_eq_some_iff.mp last
    have split : f.content.toList = init ++ '\n' :: (line ++ after) := by rw [around.whole]; simp
    rw [length_utf8_append]
    exact feed_lt uncut split

theorem held (around : Around f.content.toList before line after) (uncut : f.Uncut) :
    f.lineTable[before.count '\n']? = some (utf8 before).length := by
  have inside : before.count '\n' < (0 :: startsBehind 0 (utf8 before)).length := by
    rw [length_front]
    omega
  rw [around.lineTable_eq, List.getElem?_toArray, List.getElem?_append_left inside,
    around.closed.front_getElem? (around.length_before_lt uncut)]

theorem finds_of_uncut (around : Around f.content.toList before line after) (uncut : f.Uncut)
    {offset : Nat} (low : (utf8 before).length ≤ offset)
    (high : offset ≤ (utf8 (before ++ line)).length ∨ after = []) :
    f.Finds offset (before.count '\n') (utf8 before).length := by
  refine ⟨?_, around.held uncut, low⟩
  rw [around.lineTable_eq, partitionPoint_append, length_front]
  · refine List.forall_mem_cons.mpr ⟨decide_eq_true (Nat.zero_le _), fun start h => ?_⟩
    have fits : ∀ i : Nat, (utf8 before)[i]? = some 10 → 0 + i + 1 < wordBound 32 := by
      intro i feed
      obtain ⟨inside, -⟩ := List.getElem?_eq_some_iff.mp feed
      have := around.length_before_lt uncut
      omega
    have := mem_startsBehind fits h
    exact decide_eq_true (by omega)
  · intro start h
    rcases high with high | rfl
    · have fits : ∀ i : Nat, (utf8 after)[i]? = some 10 →
          (utf8 (before ++ line)).length + i + 1 < wordBound 32 := by
        refine fun i feed => uncut _ ?_
        rwa [around.bytes_eq, List.getElem?_append_right (Nat.le_add_right _ _),
          Nat.add_sub_cancel_left]
      have := mem_startsBehind fits h
      exact decide_eq_false (by omega)
    · cases h

theorem finds (around : Around f.content.toList before line after)
    (short : f.bytes.length < wordBound 32 - 1) {offset : Nat}
    (low : (utf8 before).length ≤ offset)
    (high : offset ≤ (utf8 (before ++ line)).length ∨ after = []) :
    f.Finds offset (before.count '\n') (utf8 before).length :=
  around.finds_of_uncut (SourceFile.uncut_of_short short) low high

theorem position_of_uncut (around : Around f.content.toList before line after) (uncut : f.Uncut)
    (numbered : before.count '\n' + 1 < wordBound 32) {offset : Nat}
    (low : (utf8 before).length ≤ offset)
    (high : offset ≤ (utf8 (before ++ line)).length ∨ after = []) :
    f.position offset = (sumWithin 32 .columnOverflow (offset - (utf8 before).length) 1).map
      fun column => (before.count '\n' + 1, column) := by
  rw [(around.finds_of_uncut uncut low high).position_eq, Nat.mod_eq_of_lt (by omega),
    sumWithin_eq_ok _ numbered, ok_bind]
  rfl

theorem position_eq (around : Around f.content.toList before line after)
    (short : f.bytes.length < wordBound 32 - 1) {offset : Nat}
    (low : (utf8 before).length ≤ offset)
    (high : offset ≤ (utf8 (before ++ line)).length ∨ after = []) :
    f.position offset = (sumWithin 32 .columnOverflow (offset - (utf8 before).length) 1).map
      fun column => (before.count '\n' + 1, column) := by
  have few := around.count_le
  exact around.position_of_uncut (SourceFile.uncut_of_short short) (by omega) low high

theorem lineText_of_uncut (around : Around f.content.toList before line after)
    (uncut : f.Uncut) : f.lineText (before.count '\n') = .ok line := by
  have total := congrArg List.length around.bytes_eq
  rw [List.length_append] at total
  have next : f.lineTable[before.count '\n' + 1]? =
      (startsBehind (utf8 (before ++ line)).length (utf8 after)).head? := by
    rw [around.lineTable_eq, List.getElem?_toArray, ← length_front,
      List.getElem?_append_right (Nat.le_refl _), Nat.sub_self, List.head?_eq_getElem?]
  have cut : slice f.content.toList (utf8 before).length (utf8 (before ++ line)).length =
      .ok line := by
    rw [around.whole, slice_utf8]
  rw [SourceFile.lineText, SourceFile.lineStart, around.held uncut, ok_bind, next]
  rcases around.ends with rfl | ⟨rest, rfl⟩
  · rw [← cut, show (utf8 (before ++ line)).length = f.bytes.length by rw [total]; rfl]
    rfl
  · have first : (startsBehind (utf8 (before ++ line)).length (utf8 ('\n' :: rest))).head? =
        Option.some ((utf8 (before ++ line)).length + 1) := by
      rw [← Nat.mod_eq_of_lt (feed_lt uncut around.whole)]
      rfl
    rw [first]
    exact cut

theorem lineText_eq (around : Around f.content.toList before line after)
    (short : f.bytes.length < wordBound 32 - 1) :
    f.lineText (before.count '\n') = .ok line :=
  around.lineText_of_uncut (SourceFile.uncut_of_short short)

theorem lineAt_of_uncut (around : Around f.content.toList before line after) (uncut : f.Uncut)
    (numbered : before.count '\n' + 1 < wordBound 32) {offset : Nat}
    (low : (utf8 before).length ≤ offset)
    (high : offset ≤ (utf8 (before ++ line)).length ∨ after = []) :
    f.lineAt offset = (sumWithin 32 .columnOverflow (offset - (utf8 before).length) 1).map
      fun _ => String.ofList (line.reverse.dropWhile (· == '\r')).reverse := by
  rw [SourceFile.lineAt, around.position_of_uncut uncut numbered low high]
  cases sumWithin 32 .columnOverflow (offset - (utf8 before).length) 1 with
  | error fault => rfl
  | ok column =>
    simp only [Except.map, ok_bind]
    rw [difference_eq_ok (Nat.le_add_left 1 _), ok_bind, Nat.add_sub_cancel,
      around.lineText_of_uncut uncut]
    rfl

theorem lineAt_eq (around : Around f.content.toList before line after)
    (short : f.bytes.length < wordBound 32 - 1) {offset : Nat}
    (low : (utf8 before).length ≤ offset)
    (high : offset ≤ (utf8 (before ++ line)).length ∨ after = []) :
    f.lineAt offset = (sumWithin 32 .columnOverflow (offset - (utf8 before).length) 1).map
      fun _ => String.ofList (line.reverse.dropWhile (· == '\r')).reverse := by
  have few := around.count_le
  exact around.lineAt_of_uncut (SourceFile.uncut_of_short short) (by omega) low high

theorem counts (around : Around f.content.toList before line after) {offset : Nat}
    (low : (utf8 before).length ≤ offset) (high : offset ≤ (utf8 (before ++ line)).length) :
    (f.bytes.take offset).count 10 = before.count '\n' ∧
      sinceFeed (f.bytes.take offset) = offset - (utf8 before).length := by
  rw [length_utf8_append] at high
  have taken : f.bytes.take offset =
      utf8 before ++ (utf8 line).take (offset - (utf8 before).length) := by
    rw [around.bytes_eq, utf8_append, List.append_assoc, List.take_append,
      List.take_of_length_le low, List.take_append_of_le_length (by omega)]
  have plain : 10 ∉ (utf8 line).take (offset - (utf8 before).length) := fun h =>
    around.plain (feed_mem_utf8.mp (List.mem_of_mem_take h))
  constructor
  · rw [taken, List.count_append, count_utf8, List.count_eq_zero.mpr plain, Nat.add_zero]
  · rw [taken, sinceFeed_append plain, around.closed.sinceFeed_utf8, Nat.zero_add,
      List.length_take_of_le (by omega)]

end Around

/-- Bytes that are added behind come later: on a later line, or further along on the same one. -/
theorem later_of_append (bs : List UInt8) {tail : List UInt8} (some : tail ≠ []) :
    bs.count 10 < (bs ++ tail).count 10 ∨
      bs.count 10 = (bs ++ tail).count 10 ∧ sinceFeed bs < sinceFeed (bs ++ tail) := by
  rw [List.count_append]
  by_cases feed : 10 ∈ tail
  · have := List.count_pos_iff.mpr feed
    exact .inl (by omega)
  · have := List.length_pos_iff.mpr some
    rw [List.count_eq_zero.mpr feed, sinceFeed_append feed]
    exact .inr ⟨rfl, by omega⟩

theorem later_of_lt {bs : List UInt8} {a b : Nat} (less : a < b) (inside : b ≤ bs.length) :
    (bs.take a).count 10 < (bs.take b).count 10 ∨
      (bs.take a).count 10 = (bs.take b).count 10 ∧
        sinceFeed (bs.take a) < sinceFeed (bs.take b) := by
  obtain ⟨n, rfl⟩ := Nat.exists_eq_add_of_lt less
  rw [Nat.add_assoc, List.take_add]
  refine later_of_append _ fun none => ?_
  have := congrArg List.length none
  rw [List.length_take, List.length_drop, List.length_nil] at this
  omega

theorem lt_iff_later {bs : List UInt8} {a b : Nat} (ha : a ≤ bs.length) (hb : b ≤ bs.length) :
    a < b ↔ (bs.take a).count 10 < (bs.take b).count 10 ∨
      (bs.take a).count 10 = (bs.take b).count 10 ∧
        sinceFeed (bs.take a) < sinceFeed (bs.take b) := by
  refine ⟨fun less => later_of_lt less hb, fun later => ?_⟩
  rcases Nat.lt_trichotomy a b with less | rfl | more
  · exact less
  · omega
  · have := later_of_lt more ha
    omega

theorem SourceFile.forall₂_lineText {f : SourceFile} (short : f.bytes.length < wordBound 32 - 1)
    (before : List Char) {lines : List (List Char)}
    (whole : f.content.toList = before ++ ['\n'].intercalate lines) (closed : Closed before)
    (plain : ∀ line ∈ lines, '\n' ∉ line) :
    List.Forall₂ (fun number line => f.lineText number = .ok line)
      (List.range' (before.count '\n') lines.length) lines := by
  induction lines generalizing before with
  | nil => exact .nil
  | cons line rest ih =>
    obtain ⟨first, others⟩ := List.forall_mem_cons.mp plain
    cases rest with
    | nil =>
      rw [List.intercalate_singleton] at whole
      have around : Around f.content.toList before line [] :=
        ⟨by rw [whole, List.append_nil], closed, first, .inl rfl⟩
      exact .cons (around.lineText_eq short) .nil
    | cons next rest =>
      rw [List.intercalate_cons_cons] at whole
      have around : Around f.content.toList before line
          ('\n' :: ['\n'].intercalate (next :: rest)) :=
        ⟨by rw [whole]; simp, closed, first, .inr ⟨_, rfl⟩⟩
      have later := ih (before ++ line ++ ['\n']) (by rw [whole]; simp) (.concat _) others
      rw [List.count_append, List.count_append, List.count_eq_zero.mpr first] at later
      exact .cons (around.lineText_eq short) later

/-- An offset stands on the line from the last line feed before it, or the start, to the next one at
or behind it, or the end. -/
structure SourceFile.StandsOn (f : SourceFile) (offset : Nat) (before line after : List Char) : Prop
    extends Around f.content.toList before line after where
  low : (utf8 before).length ≤ offset
  high : offset ≤ (utf8 (before ++ line)).length

theorem SourceFile.exists_standsOn {f : SourceFile} {offset : Nat}
    (inside : offset ≤ f.bytes.length) :
    ∃ before line after, f.StandsOn offset before line after := by
  obtain ⟨before, line, after, around, low, high⟩ := exists_around f.content.toList offset
  refine ⟨before, line, after, around, low, high.elim id ?_⟩
  rintro rfl
  rw [around.bytes_eq] at inside
  simpa [utf8] using inside

theorem isValid_utf8 {s : String} {front back : List Char} (whole : s.toList = front ++ back) :
    (⟨(utf8 front).length⟩ : String.Pos.Raw).IsValid s := by
  refine String.Pos.Raw.isValid_iff_exists_append.mpr
    ⟨String.ofList front, String.ofList back, ?_, ?_⟩
  · rw [← String.ofList_append, ← whole, String.ofList_toList]
  · apply String.Pos.Raw.ext
    rw [String.byteIdx_rawEndPos, ← String.size_toByteArray, String.toByteArray_ofList]
    simp [List.utf8Encode, utf8]

/-- Positions in a text that leaves room in 32 bits. Line and column of an offset are counts of what
stands before it, its line is cut out between characters and shown without the carriage returns at
the end, positions are in the order of the offsets, and the lines make up the text. -/
theorem positions_exact (f : SourceFile) (short : f.bytes.length < wordBound 32 - 1) :
    (∀ offset ≤ f.bytes.length,
      f.position offset =
        .ok (1 + (f.bytes.take offset).count 10, 1 + sinceFeed (f.bytes.take offset)) ∧
      ∃ before line after kept returns, f.StandsOn offset before line after ∧
        (⟨(utf8 before).length⟩ : String.Pos.Raw).IsValid f.content ∧
        (⟨(utf8 (before ++ line)).length⟩ : String.Pos.Raw).IsValid f.content ∧
        f.lineText (before.count '\n') = .ok line ∧
        line = kept ++ List.replicate returns '\r' ∧ kept.getLast? ≠ some '\r' ∧
        f.lineAt offset = .ok (String.ofList kept)) ∧
    (∀ a ≤ f.bytes.length, ∀ b ≤ f.bytes.length, ∃ p q, f.position a = .ok p ∧
      f.position b = .ok q ∧ (p = q → a = b) ∧
      (a < b ↔ p.1 < q.1 ∨ p.1 = q.1 ∧ p.2 < q.2)) ∧
    ∃ lines, (List.range f.lineTable.size).mapM f.lineText = .ok lines ∧
      ['\n'].intercalate lines = f.content.toList := by
  have position : ∀ offset ≤ f.bytes.length, f.position offset =
      .ok (1 + (f.bytes.take offset).count 10, 1 + sinceFeed (f.bytes.take offset)) := by
    intro offset inside
    obtain ⟨before, line, after, stands⟩ := SourceFile.exists_standsOn inside
    obtain ⟨feeds, since⟩ := stands.counts stands.low stands.high
    rw [stands.position_eq short stands.low (.inl stands.high), sumWithin_eq_ok _ (by omega), feeds,
      since, Nat.add_comm 1, Nat.add_comm 1]
    rfl
  refine ⟨fun offset inside => ⟨position offset inside, ?_⟩, fun a ha b hb => ?_, ?_⟩
  · obtain ⟨before, line, after, stands⟩ := SourceFile.exists_standsOn inside
    obtain ⟨kept, returns, trimmed, split, last⟩ := exists_returns line
    have whole : f.content.toList = before ++ (line ++ after) := by
      rw [stands.whole, List.append_assoc]
    refine ⟨before, line, after, kept, returns, stands, isValid_utf8 whole,
      isValid_utf8 stands.whole, stands.lineText_eq short, split, last, ?_⟩
    rw [stands.lineAt_eq short stands.low (.inl stands.high), sumWithin_eq_ok _ (by omega), trimmed]
    rfl
  · refine ⟨_, _, position a ha, position b hb, ?_, ?_⟩
    · intro same
      obtain ⟨line, column⟩ := Prod.mk.inj same
      have before := lt_iff_later ha hb
      have behind := lt_iff_later hb ha
      omega
    · rw [lt_iff_later ha hb]
      omega
  · obtain ⟨lines, whole, many, plain⟩ := exists_lines f.content.toList
    have all := f.forall₂_lineText short [] whole.symm (.inl rfl) plain
    have size : f.lineTable.size = lines.length := by
      rw [SourceFile.lineTable, List.size_toArray, List.length_cons, length_startsBehind,
        f.bytes_eq, count_utf8, many]
    rw [List.count_nil, ← size, ← List.range_eq_range'] at all
    exact ⟨lines, mapM_eq_ok.mpr all, whole⟩

def mixedFile : SourceFile := ⟨"units/a.mlir", "module a\r\n  é"⟩

theorem positions_exact_mixed :
    mixedFile.bytes.length < wordBound 32 - 1 ∧ mixedFile.position 9 = .ok (1, 10) ∧
      mixedFile.position 14 = .ok (2, 5) := by
  have short : mixedFile.bytes.length < wordBound 32 - 1 := by decide
  obtain ⟨position, -, -⟩ := positions_exact mixedFile short
  exact ⟨short, (position 9 (by decide)).1.trans (by decide),
    (position 14 (by decide)).1.trans (by decide)⟩

end Linkage
