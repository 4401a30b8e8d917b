import Linkage.Source.File
import Mathlib.Data.List.DropRight
import Mathlib.Tactic.SplitIfs
/-!
The lines of a text, among its characters and among its bytes. A text is taken apart around one of
its lines: what stands before the line is empty or ends in a line feed, what stands behind it is
empty or begins with one, and the line holds none.
-/
namespace Linkage

def utf8 (cs : List Char) : List UInt8 := cs.flatMap String.utf8EncodeChar

theorem utf8_append (cs ds : List Char) : utf8 (cs ++ ds) = utf8 cs ++ utf8 ds :=
  List.flatMap_append

theorem length_utf8_append (cs ds : List Char) :
    (utf8 (cs ++ ds)).length = (utf8 cs).length + (utf8 ds).length := by
  rw [utf8_append, List.length_append]

theorem length_utf8_cons (c : Char) (cs : List Char) :
    (utf8 (c :: cs)).length = c.utf8Size + (utf8 cs).length := by
  rw [utf8, List.flatMap_cons, List.length_append, String.length_utf8EncodeChar, utf8]

theorem length_utf8_eq_zero {cs : List Char} : (utf8 cs).length = 0 ↔ cs = [] := by
  cases cs with
  | nil => exact ⟨fun _ => rfl, fun _ => rfl⟩
  | cons c cs =>
    have := c.utf8Size_pos
    simp only [length_utf8_cons, reduceCtorEq, iff_false]
    omega

theorem toUTF8_eq (s : String) : s.toUTF8.data.toList = utf8 s.toList := by
  rw [String.toUTF8_eq_toByteArray, ← String.utf8Encode_toList]
  simp [List.utf8Encode, utf8]

theorem SourceFile.bytes_eq (f : SourceFile) : f.bytes = utf8 f.content.toList :=
  toUTF8_eq f.content

theorem toNat_of_mem_utf8EncodeChar {c : Char} {b : UInt8} (h : b ∈ String.utf8EncodeChar c) :
    b.toNat = c.toNat ∨ 128 ≤ b.toNat := by
  simp only [String.utf8EncodeChar] at h
  split_ifs at h <;> simp only [List.mem_cons, List.not_mem_nil, or_false] at h
  · left
    rw [h, UInt8.toNat_ofNat']
    exact Nat.mod_eq_of_lt (by omega)
  · rcases h with rfl | rfl <;> (rw [UInt8.toNat_ofNat']; omega)
  · rcases h with rfl | rfl | rfl <;> (rw [UInt8.toNat_ofNat']; omega)
  · rcases h with rfl | rfl | rfl | rfl <;> (rw [UInt8.toNat_ofNat']; omega)

theorem feed_mem_utf8EncodeChar {c : Char} : 10 ∈ String.utf8EncodeChar c ↔ c = '\n' := by
  constructor
  · intro h
    have code : c.toNat = 10 :=
      (toNat_of_mem_utf8EncodeChar h).elim Eq.symm fun high => absurd high (by decide)
    exact Char.ext (UInt32.toNat_inj.mp code)
  · rintro rfl
    decide

theorem feed_mem_utf8 {cs : List Char} : 10 ∈ utf8 cs ↔ '\n' ∈ cs := by
  simp only [utf8, List.mem_flatMap, feed_mem_utf8EncodeChar, exists_eq_right]

theorem count_utf8 (cs : List Char) : (utf8 cs).count 10 = cs.count '\n' := by
  induction cs with
  | nil => rfl
  | cons c cs ih =>
    rw [utf8, List.flatMap_cons, List.count_append, ← utf8, ih, Nat.add_comm]
    by_cases feed : c = '\n'
    · subst feed
      rw [List.count_cons_self]
      rfl
    · rw [List.count_cons_of_ne feed,
        List.count_eq_zero.mpr fun h => feed (feed_mem_utf8EncodeChar.mp h), Nat.add_zero]

def sinceFeed (bs : List UInt8) : Nat := (bs.reverse.takeWhile (· ≠ 10)).length

theorem sinceFeed_append {bs : List UInt8} {tail : List UInt8} (plain : 10 ∉ tail) :
    sinceFeed (bs ++ tail) = sinceFeed bs + tail.length := by
  have all : ∀ b ∈ tail.reverse, decide (b ≠ 10) = true := fun b hb =>
    decide_eq_true fun same => plain (same ▸ List.mem_reverse.mp hb)
  rw [sinceFeed, List.reverse_append, List.takeWhile_append_of_pos all, List.length_append,
    List.length_reverse, Nat.add_comm, sinceFeed]

/-- The characters before a line end with a line feed, unless there are none. -/
def Closed (cs : List Char) : Prop := cs = [] ∨ cs.getLast? = some '\n'

theorem Closed.cons {c : Char} {cs : List Char} (h : Closed cs) (some : c = '\n' ∨ cs ≠ []) :
    Closed (c :: cs) := by
  rcases h with rfl | h
  · exact .inr (by rw [some.resolve_right fun differs => differs rfl]; rfl)
  · exact .inr (by rw [List.getLast?_cons, h]; rfl)

theorem Closed.concat (cs : List Char) : Closed (cs ++ ['\n']) := .inr List.getLast?_concat

theorem Closed.sinceFeed_utf8 {cs : List Char} (h : Closed cs) : sinceFeed (utf8 cs) = 0 := by
  rcases h with rfl | h
  · rfl
  · obtain ⟨init, rfl⟩ := List.getLast?_eq_some_iff.mp h
    rw [utf8_append, sinceFeed, List.reverse_append]
    rfl

/-- A text taken apart around one of its lines. -/
structure Around (cs before line after : List Char) : Prop where
  whole : cs = before ++ line ++ after
  closed : Closed before
  plain : '\n' ∉ line
  ends : after = [] ∨ ∃ rest, after = '\n' :: rest

theorem exists_around (cs : List Char) (offset : Nat) :
    ∃ before line after, Around cs before line after ∧ (utf8 before).length ≤ offset ∧
      (offset ≤ (utf8 (before ++ line)).length ∨ after = []) := by
  induction cs generalizing offset with
  | nil =>
    exact ⟨[], [], [], ⟨rfl, .inl rfl, List.not_mem_nil, .inl rfl⟩, Nat.zero_le _, .inr rfl⟩
  | cons c cs ih =>
    obtain ⟨before, line, after, around, low, high⟩ := ih (offset - c.utf8Size)
    have size := c.utf8Size_pos
    by_cases first : c = '\n' ∧ offset = 0
    · obtain ⟨rfl, rfl⟩ := first
      exact ⟨[], [], '\n' :: cs, ⟨rfl, .inl rfl, List.not_mem_nil, .inr ⟨cs, rfl⟩⟩, Nat.le_refl _,
        .inl (Nat.zero_le _)⟩
    by_cases joins : c ≠ '\n' ∧ before = []
    · obtain ⟨other, rfl⟩ := joins
      have plain : '\n' ∉ c :: line := fun h =>
        (List.mem_cons.mp h).elim (fun same => other same.symm) around.plain
      refine ⟨[], c :: line, after, ⟨by rw [around.whole]; rfl, .inl rfl, plain, around.ends⟩,
        Nat.zero_le _, high.imp_left fun high => ?_⟩
      rw [List.nil_append] at high ⊢
      rw [length_utf8_cons]
      omega
    · have some : c = '\n' ∨ before ≠ [] := by
        by_contra neither
        exact joins (not_or.mp neither |>.imp_right not_not.mp)
      have far : c.utf8Size ≤ offset := by
        rcases some with rfl | some
        · have one : Char.utf8Size '\n' = 1 := by decide
          have : offset ≠ 0 := fun zero => first ⟨rfl, zero⟩
          omega
        · have := mt length_utf8_eq_zero.mp some
          omega
      refine ⟨c :: before, line, after, ⟨by rw [around.whole]; rfl, around.closed.cons some,
        around.plain, around.ends⟩, ?_, high.imp_left fun high => ?_⟩
      · rw [length_utf8_cons]
        omega
      · rw [List.cons_append, length_utf8_cons]
        omega

theorem cutAt_utf8 (front back : List Char) :
    cutAt (front ++ back) (utf8 front).length = some (front, back) := by
  induction front with
  | nil => cases back <;> rfl
  | cons c front ih =>
    have size := c.utf8Size_pos
    have sum := length_utf8_cons c front
    obtain ⟨n, hn⟩ : ∃ n, (utf8 (c :: front)).length = n + 1 := Nat.exists_eq_add_one.mpr (by omega)
    rw [hn, List.cons_append, cutAt, if_pos (by omega),
      show n + 1 - c.utf8Size = (utf8 front).length by omega, ih]
    rfl

theorem slice_utf8 (before line after : List Char) :
    slice (before ++ line ++ after) (utf8 before).length (utf8 (before ++ line)).length =
      .ok line := by
  rw [slice, cutAt_utf8, Option.bind_some]
  simp only [cutAt_utf8]

theorem exists_lines (cs : List Char) : ∃ lines, ['\n'].intercalate lines = cs ∧
    lines.length = cs.count '\n' + 1 ∧ ∀ line ∈ lines, '\n' ∉ line := by
  induction cs with
  | nil => exact ⟨[[]], rfl, rfl, fun line h => by simp_all⟩
  | cons c cs ih =>
    obtain ⟨lines, whole, many, plain⟩ := ih
    by_cases feed : c = '\n'
    · subst feed
      refine ⟨[] :: lines, ?_, ?_, ?_⟩
      · rw [List.intercalate_cons_of_ne_nil (by rintro rfl; cases many), whole]
        rfl
      · rw [List.length_cons, many, List.count_cons_self]
      · exact List.forall_mem_cons.mpr ⟨List.not_mem_nil, plain⟩
    · cases lines with
      | nil => cases many
      | cons line rest =>
        obtain ⟨first, others⟩ := List.forall_mem_cons.mp plain
        refine ⟨(c :: line) :: rest, ?_, ?_, ?_⟩
        · rw [← whole]
          cases rest <;> rfl
        · rw [List.count_cons_of_ne feed, ← many]
          rfl
        · exact List.forall_mem_cons.mpr ⟨fun h =>
            (List.mem_cons.mp h).elim (fun same => feed same.symm) first, others⟩

/-- What is left of a line is the line without the carriage returns at its end. -/
theorem exists_returns (line : List Char) : ∃ kept returns,
    (line.reverse.dropWhile (· == '\r')).reverse = kept ∧
      line = kept ++ List.replicate returns '\r' ∧ kept.getLast? ≠ some '\r' := by
  refine ⟨line.rdropWhile (· == '\r'), (line.rtakeWhile (· == '\r')).length, rfl, ?_, ?_⟩
  · have returns : ∀ c ∈ line.rtakeWhile (· == '\r'), c = '\r' := fun c hc =>
      by simpa using List.mem_rtakeWhile_imp hc
    rw [← List.eq_replicate_of_mem returns, List.rdropWhile_append_rtakeWhile]
  · intro last
    obtain ⟨init, hinit⟩ := List.getLast?_eq_some_iff.mp last
    have some : line.rdropWhile (· == '\r') ≠ [] := by simp [hinit]
    refine List.rdropWhile_last_not (· == '\r') line some ?_
    simp [hinit]

end Linkage
