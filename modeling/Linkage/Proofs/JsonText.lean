import Linkage.Json.Printer
import Linkage.Json.Reader
import Mathlib.Data.List.Nodup
/-!
JSON text. What a value is written as is read again as that value, whatever stands behind it, as
long as that does not go on a number. Reading goes down at most two steps for each character.
-/
namespace Linkage.Json

mutual

/-- A value that can be written: no part of it is foreign. -/
def Plain : Json → Prop
  | .arr items => PlainItems items
  | .obj fields => PlainFields fields
  | .foreign => False
  | _ => True

def PlainItems : List Json → Prop
  | [] => True
  | item :: rest => Plain item ∧ PlainItems rest

def PlainFields : List (String × Json) → Prop
  | [] => True
  | (_, value) :: rest => Plain value ∧ PlainFields rest

end

theorem plainItems_iff {items : List Json} : PlainItems items ↔ ∀ item ∈ items, item.Plain := by
  induction items with
  | nil => simp [PlainItems]
  | cons item rest ih => simp [PlainItems, ih]

theorem plainFields_iff {fields : List (String × Json)} :
    PlainFields fields ↔ ∀ field ∈ fields, field.2.Plain := by
  induction fields with
  | nil => simp [PlainFields]
  | cons field rest ih => simp [PlainFields, ih]

/-! Strings -/

theorem codeUnit?_control : ∀ n < 32,
    codeUnit? '0' '0' (hexDigit (n / 16)) (hexDigit (n % 16)) = some n := by decide

theorem readChars_no_unit {a b c d : Char} (h : codeUnit? a b c d = none) (rest : List Char) :
    readChars ('\\' :: 'u' :: a :: b :: c :: d :: rest) = none := by
  rw [readChars.eq_def]
  split
  · rfl
  · next heq => simp at heq
  · next heq =>
    simp only [List.cons.injEq, true_and] at heq
    obtain ⟨rfl, rfl, rfl, rfl, -⟩ := heq
    rw [h]
    rfl
  · next heq =>
    simp only [List.cons.injEq, true_and] at heq
    obtain ⟨rfl, rfl, rfl, rfl, -⟩ := heq
    rw [h]
    rfl
  · next single heq =>
    simp only [List.cons.injEq, true_and] at heq
    exact (single a b c d rest heq.1.symm heq.2.symm).elim
  · next escape heq =>
    simp only [List.cons.injEq] at heq
    exact (escape _ _ heq.1.symm heq.2.symm).elim

theorem readChars_unit {a b c d : Char} {n : Nat} (h : codeUnit? a b c d = some n)
    (small : n < 0xD800) (rest : List Char) :
    readChars ('\\' :: 'u' :: a :: b :: c :: d :: rest) =
      (readChars rest).map fun out => (some (Char.ofNat n) :: out.1, out.2) := by
  have high : isHighSurrogate n = false := by simp [isHighSurrogate]; omega
  have low : isLowSurrogate n = false := by simp [isLowSurrogate]; omega
  rw [readChars.eq_def]
  split
  · next heq => simp at heq
  · next heq => simp at heq
  · next a' b' c' d' more heq =>
    simp only [List.cons.injEq, true_and] at heq
    obtain ⟨rfl, rfl, rfl, rfl, rfl⟩ := heq
    cases other : codeUnit? a' b' c' d' with
    | none => simp [h, readChars_no_unit other]
    | some unit =>
      simp only [h, high, low, Option.bind_eq_bind, Option.bind_some, Bool.false_and,
        Bool.or_self, Bool.false_eq_true, if_false]
      cases readChars ('\\' :: 'u' :: a' :: b' :: c' :: d' :: more) <;> rfl
  · next heq =>
    simp only [List.cons.injEq, true_and] at heq
    obtain ⟨rfl, rfl, rfl, rfl, rfl⟩ := heq
    simp only [h, high, low, Option.bind_eq_bind, Option.bind_some, Bool.or_self,
      Bool.false_eq_true, if_false]
    cases readChars rest <;> rfl
  · next single heq =>
    simp only [List.cons.injEq, true_and] at heq
    exact (single a b c d rest heq.1.symm heq.2.symm).elim
  · next escape heq =>
    simp only [List.cons.injEq] at heq
    exact (escape _ _ heq.1.symm heq.2.symm).elim

theorem readChars_marked {c c' : Char} (h : unescape? c = some c') (rest : List Char) :
    readChars ('\\' :: c :: rest) =
      (readChars rest).map fun out => (some c' :: out.1, out.2) := by
  have unit : c ≠ 'u' := by
    rintro rfl
    cases h
  rw [readChars.eq_def]
  split
  · next heq => simp at heq
  · next heq => simp at heq
  · next heq => exact absurd (List.cons.inj (List.cons.inj heq).2).1 unit
  · next heq => exact absurd (List.cons.inj (List.cons.inj heq).2).1 unit
  · next heq =>
    obtain ⟨rfl, rfl⟩ := List.cons.inj (List.cons.inj heq).2
    rw [h]
    cases readChars rest <;> rfl
  · next escape heq =>
    obtain ⟨rfl, rfl⟩ := List.cons.inj heq
    exact (escape c rest rfl rfl).elim

theorem readChars_printed {c : Char} (printed : ¬ c.toNat < 32) (quote : c ≠ '"')
    (backslash : c ≠ '\\') (rest : List Char) :
    readChars (c :: rest) = (readChars rest).map fun out => (some c :: out.1, out.2) := by
  rw [readChars.eq_def]
  split
  · next heq => cases heq
  · next heq => exact absurd (List.cons.inj heq).1 quote
  · next heq => exact absurd (List.cons.inj heq).1 backslash
  · next heq => exact absurd (List.cons.inj heq).1 backslash
  · next heq => exact absurd (List.cons.inj heq).1 backslash
  · next heq =>
    obtain ⟨rfl, rfl⟩ := List.cons.inj heq
    simp only [printed, decide_false, beq_eq_false_iff_ne.mpr backslash, Bool.or_self,
      Bool.false_eq_true, if_false]
    cases readChars rest <;> rfl

theorem readChars_escape (c : Char) (rest : List Char) :
    readChars (escapeChar c ++ rest) =
      (readChars rest).map fun out => (some c :: out.1, out.2) := by
  unfold escapeChar
  split
  case h_8 quote backslash _ _ _ _ _ =>
    split
    · next control =>
      have unit := readChars_unit (codeUnit?_control c.toNat control) (by omega) rest
      rw [Char.ofNat_toNat] at unit
      exact unit
    · next printed => exact readChars_printed printed quote backslash rest
  all_goals exact readChars_marked rfl rest

theorem readString_quote (s : String) (rest : List Char) :
    readString (s.toList.flatMap escapeChar ++ '"' :: rest) = some (some s, rest) := by
  have units : ∀ cs : List Char,
      readChars (cs.flatMap escapeChar ++ '"' :: rest) = some (cs.map some, rest) := by
    intro cs
    induction cs with
    | nil => rw [List.flatMap_nil, List.nil_append, readChars, List.map_nil]
    | cons c others ih =>
      rw [List.flatMap_cons, List.append_assoc, readChars_escape, ih]
      rfl
  have whole : (s.toList.map some).mapM id = some s.toList := by
    rw [List.mapM_map]
    exact (List.mapM_pure (m := Option) (f := fun c : Char => c)).trans
      (congrArg some (List.map_id' s.toList))
  simp [readString, units, whole]

/-! Numbers -/

def Stops (cs : List Char) : Prop :=
  ∀ c ∈ cs.head?, c.isDigit = false ∧ c ≠ '.' ∧ c ≠ 'e' ∧ c ≠ 'E'

theorem digitsValue_toDigits (n : Nat) : digitsValue (Nat.toDigits 10 n) = n := by
  have folds : ∀ cs, digitsValue cs = Nat.ofDigitChars 10 cs 0 := fun cs => by
    rw [Nat.ofDigitChars_eq_foldl, digitsValue]
    simp only [Nat.mul_comm]
    rfl
  rw [folds, Nat.ofDigitChars_ten_toDigits]

theorem isDigit_toDigits (n : Nat) : ∀ c ∈ Nat.toDigits 10 n, c.isDigit = true := fun _ hc =>
  Nat.isDigit_of_mem_toDigits (by decide) (by decide) hc

theorem head?_toDigits {n : Nat} (pos : 0 < n) : (Nat.toDigits 10 n).head? ≠ some '0' := by
  induction n using Nat.strongRecOn with
  | _ n ih =>
    rw [Nat.toDigits_eq_if (by decide)]
    split
    · simp
      omega
    · next large =>
      have inner := ih (n / 10) (by omega) (by omega)
      rwa [List.head?_append_of_ne_nil _ Nat.toDigits_ne_nil]

/-- Only the number zero is written with a leading zero. -/
theorem toDigits_canonical (n : Nat) :
    (Nat.toDigits 10 n).length ≤ 1 ∨ (Nat.toDigits 10 n).head? ≠ some '0' := by
  rcases Nat.eq_zero_or_pos n with rfl | pos
  · exact .inl (by decide)
  · exact .inr (head?_toDigits pos)

theorem Stops.readFraction {rest : List Char} (h : Stops rest) :
    readFraction rest = some (false, rest) := by
  unfold Json.readFraction
  split
  · next digits => exact absurd rfl (h '.' rfl).2.1
  · rfl

theorem Stops.readExponent {rest : List Char} (h : Stops rest) :
    readExponent rest = some (false, rest) := by
  unfold Json.readExponent
  split
  · rfl
  · next c digits =>
    obtain ⟨-, -, lower, upper⟩ := h c rfl
    simp [lower, upper]

theorem Stops.takeWhile {rest : List Char} (h : Stops rest) (n : Nat) :
    (Nat.toDigits 10 n ++ rest).takeWhile Char.isDigit = Nat.toDigits 10 n ∧
      (Nat.toDigits 10 n ++ rest).dropWhile Char.isDigit = rest := by
  rw [List.takeWhile_append_of_pos (isDigit_toDigits n),
    List.dropWhile_append_of_pos (isDigit_toDigits n)]
  cases rest with
  | nil => simp
  | cons c rest => simp [(h c rfl).1]

theorem readNumber_digits {rest : List Char} (h : Stops rest) (n : Nat) :
    readNumber (Nat.toDigits 10 n ++ rest) = some (.int n, rest) ∧
      (n ≠ 0 → readNumber ('-' :: (Nat.toDigits 10 n ++ rest)) = some (.int (-n), rest)) := by
  obtain ⟨digits, behind⟩ := h.takeWhile n
  have unsigned : ∀ more, Nat.toDigits 10 n ++ rest ≠ '-' :: more := by
    intro more heq
    obtain ⟨c, others, hcs⟩ := List.exists_cons_of_ne_nil (Nat.toDigits_ne_nil (n := n) (b := 10))
    have digit := isDigit_toDigits n c (hcs ▸ List.mem_cons_self)
    rw [hcs] at heq
    rw [(List.cons.inj heq).1] at digit
    cases digit
  have canonical : ((Nat.toDigits 10 n).isEmpty || (decide ((Nat.toDigits 10 n).length > 1) &&
      (Nat.toDigits 10 n).head? == some '0')) = false := by
    rcases toDigits_canonical n with short | leading
    · simp [Nat.toDigits_ne_nil, Nat.not_lt.mpr short]
    · simp [Nat.toDigits_ne_nil, leading]
  constructor
  · unfold readNumber
    simp [digits, behind, canonical, h.readFraction, h.readExponent, digitsValue_toDigits]
  · intro nonzero
    unfold readNumber
    simp [digits, behind, canonical, h.readFraction, h.readExponent, digitsValue_toDigits, nonzero]

theorem exists_head_int (i : Int) :
    ∃ c cs, (toString i).toList = c :: cs ∧ (c = '-' ∨ c.isDigit = true) := by
  rw [Int.toString_eq_repr, Int.repr_eq_if]
  split
  · obtain ⟨c, cs, hcs⟩ := List.exists_cons_of_ne_nil
      (Nat.toDigits_ne_nil (n := i.toNat) (b := 10))
    rw [Nat.toList_repr]
    exact ⟨c, cs, hcs, .inr (isDigit_toDigits _ c (hcs ▸ List.mem_cons_self))⟩
  · rw [String.toList_append]
    exact ⟨'-', _, rfl, .inl rfl⟩

theorem readNumber_int {rest : List Char} (h : Stops rest) (i : Int) :
    readNumber ((toString i).toList ++ rest) = some (.int i, rest) := by
  rw [Int.toString_eq_repr, Int.repr_eq_if]
  split
  · next positive =>
    rw [Nat.toList_repr, (readNumber_digits h i.toNat).1, Int.toNat_of_nonneg positive]
  · next negative =>
    rw [String.toList_append, Nat.toList_repr, List.append_assoc]
    have read := (readNumber_digits h (-i).toNat).2 (by omega)
    rw [Int.toNat_of_nonneg (by omega), Int.neg_neg] at read
    exact read

/-! Values -/

theorem skipBlanks_cons {c : Char} (h : isBlank c = false) (cs : List Char) :
    skipBlanks (c :: cs) = c :: cs := by
  rw [skipBlanks, List.dropWhile_cons_of_neg (by simp [h])]

theorem isBlank_of_head {c : Char} (h : c = '-' ∨ c.isDigit = true) : isBlank c = false := by
  by_contra blank
  simp only [isBlank, Bool.not_eq_false, Bool.or_eq_true, beq_iff_eq] at blank
  rcases blank with ((rfl | rfl) | rfl) | rfl <;> simp at h

/-- The text of a value starts with a character that is neither a blank nor a bracket that
closes. -/
theorem exists_head {j : Json} (h : j.Plain) :
    ∃ c cs, j.chars = c :: cs ∧ isBlank c = false ∧ c ≠ ']' := by
  cases j with
  | int i =>
    obtain ⟨c, cs, hcs, start⟩ := exists_head_int i
    refine ⟨c, cs, hcs, isBlank_of_head start, ?_⟩
    rintro rfl
    simp at start
  | bool b => cases b <;> exact ⟨_, _, rfl, rfl, by decide⟩
  | foreign => exact h.elim
  | _ => exact ⟨_, _, rfl, rfl, by decide⟩

theorem readValue_number {c : Char} (h : c = '-' ∨ c.isDigit = true) (fuel : Nat)
    (cs : List Char) : readValue (fuel + 1) (c :: cs) = readNumber (c :: cs) := by
  unfold readValue
  rw [skipBlanks_cons (isBlank_of_head h)]
  split
  case h_7 => rfl
  all_goals
    next heq =>
      obtain ⟨rfl, -⟩ := List.cons.inj heq
      simp at h

theorem stops_cons {c : Char} (h : c = ',' ∨ c = ']' ∨ c = '\x7d') (cs : List Char) :
    Stops (c :: cs) := by
  rintro _ ⟨rfl⟩
  rcases h with rfl | rfl | rfl <;> decide

theorem ofEntries_texts (fields : List (String × Json)) :
    ofEntries (fields.map fun field => (some field.1, field.2)) = .obj fields := by
  have same : fields.mapM (m := Option) (fun field => some (field.1, field.2)) = some fields :=
    List.mapM_pure.trans (congrArg some (List.map_id' fields))
  rw [ofEntries, List.mapM_map]
  simp only [Function.comp_def, Option.map_some, same]

theorem readValue_arr {fuel : Nat} {c : Char} {cs rest : List Char} {items : List Json}
    (blank : isBlank c = false) (filled : c ≠ ']')
    (h : readItems fuel (c :: cs) = some (items, rest)) :
    readValue (fuel + 1) ('[' :: c :: cs) = some (.arr items, rest) := by
  unfold readValue
  simp only [skipBlanks_cons (show isBlank '[' = false from rfl), skipBlanks_cons blank]
  split
  · next heq => exact absurd (List.cons.inj heq).1 filled
  · rw [h]
    rfl

theorem readValue_obj {fuel : Nat} {cs rest : List Char}
    {entries : List (Option String × Json)}
    (h : readEntries fuel ('"' :: cs) = some (entries, rest)) :
    readValue (fuel + 1) ('\x7b' :: '"' :: cs) = some (ofEntries entries, rest) := by
  unfold readValue
  simp only [skipBlanks_cons (show isBlank '\x7b' = false from rfl),
    skipBlanks_cons (show isBlank '"' = false from rfl)]
  rw [h]
  rfl

theorem exists_head_items {items : List Json} (h : PlainItems items) (filled : items ≠ []) :
    ∃ c cs, itemChars items = c :: cs ∧ isBlank c = false ∧ c ≠ ']' := by
  match items, filled with
  | [item], _ => exact exists_head h.1
  | item :: next :: rest, _ =>
    obtain ⟨c, cs, hcs, start⟩ := exists_head h.1
    exact ⟨c, cs ++ ',' :: itemChars (next :: rest), by simp [itemChars, hcs], start⟩

theorem exists_head_fields {fields : List (String × Json)} (filled : fields ≠ []) :
    ∃ cs, fieldChars fields = '"' :: cs := by
  match fields, filled with
  | [(key, value)], _ => exact ⟨_, rfl⟩
  | (key, value) :: next :: rest, _ => exact ⟨_, rfl⟩

mutual

/-- The text of a value is read as that value, and what stands behind it is left. -/
theorem readValue_chars (j : Json) (h : j.Plain) (fuel : Nat)
    (enough : 2 * j.chars.length ≤ fuel + 1) (rest : List Char) (stops : Stops rest) :
    readValue fuel (j.chars ++ rest) = some (j, rest) := by
  obtain ⟨c, cs, hcs, blank, -⟩ := exists_head h
  obtain ⟨fuel, rfl⟩ : ∃ less, fuel = less + 1 :=
    ⟨fuel - 1, by rw [hcs, List.length_cons] at enough; omega⟩
  cases j with
  | null => rfl
  | bool b => cases b <;> rfl
  | int i =>
    obtain ⟨c, cs, hcs, start⟩ := exists_head_int i
    have read := readNumber_int stops i
    simp only [chars]
    rw [hcs] at read ⊢
    exact (readValue_number start fuel _).trans read
  | str s =>
    simp only [chars, quote, List.cons_append, List.append_assoc]
    unfold readValue
    simp [skipBlanks_cons, isBlank, readString_quote]
  | arr items =>
    cases items with
    | nil => rfl
    | cons item others =>
      obtain ⟨c, cs, hcs, blank, filled⟩ := exists_head_items h (List.cons_ne_nil item others)
      simp only [chars, List.length_cons, List.length_append] at enough
      have read := readItems_chars (item :: others) h (List.cons_ne_nil item others)
        fuel (by omega) rest
      simp only [chars, List.cons_append, List.append_assoc, List.nil_append]
      rw [hcs] at read ⊢
      exact readValue_arr blank filled read
  | obj fields =>
    cases fields with
    | nil => rfl
    | cons field others =>
      obtain ⟨cs, hcs⟩ := exists_head_fields (List.cons_ne_nil field others)
      simp only [chars, List.length_cons, List.length_append] at enough
      have read := readEntries_chars (field :: others) h (List.cons_ne_nil field others)
        fuel (by omega) rest
      simp only [chars, List.cons_append, List.append_assoc, List.nil_append]
      rw [hcs] at read ⊢
      rw [← ofEntries_texts (field :: others)]
      exact readValue_obj read
  | foreign => exact h.elim

theorem readItems_chars (items : List Json) (h : PlainItems items) (some_item : items ≠ [])
    (fuel : Nat) (enough : 2 * (itemChars items).length ≤ fuel) (rest : List Char) :
    readItems fuel (itemChars items ++ ']' :: rest) = some (items, rest) := by
  obtain ⟨c, cs, hcs, -⟩ := exists_head_items h some_item
  obtain ⟨fuel, rfl⟩ : ∃ less, fuel = less + 1 :=
    ⟨fuel - 1, by rw [hcs, List.length_cons] at enough; omega⟩
  match items, some_item with
  | [item], _ =>
    have read := readValue_chars item h.1 fuel (by simpa [itemChars] using enough) (']' :: rest)
      (stops_cons (.inr (.inl rfl)) rest)
    simp [readItems, itemChars, read, skipBlanks_cons, isBlank]
  | item :: next :: more, _ =>
    simp only [itemChars, List.length_append, List.length_cons] at enough
    have read := readValue_chars item h.1 fuel (by omega)
      (',' :: (itemChars (next :: more) ++ ']' :: rest)) (stops_cons (.inl rfl) _)
    have others := readItems_chars (next :: more) h.2 (List.cons_ne_nil next more) fuel (by omega)
      rest
    simp [readItems, itemChars, read, others, skipBlanks_cons, isBlank]

theorem readEntries_chars (fields : List (String × Json)) (h : PlainFields fields)
    (some_field : fields ≠ []) (fuel : Nat) (enough : 2 * (fieldChars fields).length ≤ fuel)
    (rest : List Char) : readEntries fuel (fieldChars fields ++ '\x7d' :: rest) =
      some (fields.map fun field => (some field.1, field.2), rest) := by
  obtain ⟨cs, hcs⟩ := exists_head_fields some_field
  obtain ⟨fuel, rfl⟩ : ∃ less, fuel = less + 1 :=
    ⟨fuel - 1, by rw [hcs, List.length_cons] at enough; omega⟩
  match fields, some_field with
  | [(key, value)], _ =>
    simp only [fieldChars, List.length_append, List.length_cons] at enough
    have read := readValue_chars value h.1 fuel (by omega) ('\x7d' :: rest)
      (stops_cons (.inr (.inr rfl)) rest)
    simp [readEntries, fieldChars, quote, readString_quote, read, skipBlanks_cons, isBlank]
  | (key, value) :: next :: more, _ =>
    simp only [fieldChars, List.length_append, List.length_cons] at enough
    have read := readValue_chars value h.1 fuel (by omega)
      (',' :: (fieldChars (next :: more) ++ '\x7d' :: rest)) (stops_cons (.inl rfl) _)
    have others := readEntries_chars (next :: more) h.2 (List.cons_ne_nil next more) fuel
      (by omega) rest
    simp [readEntries, fieldChars, quote, readString_quote, read, others, skipBlanks_cons, isBlank]

end

theorem parse_render {j : Json} (h : j.Plain) : parse j.render = some j := by
  have read := readValue_chars j h (2 * j.chars.length + 2) (by omega) [] fun c hc => by cases hc
  rw [List.append_nil] at read
  rw [parse, render, String.toList_ofList, read]
  rfl

end Linkage.Json
