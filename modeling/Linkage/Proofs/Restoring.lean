import Linkage.Proofs.JsonText
import Linkage.Stored.Decoding
import Linkage.Stored.Encoding
/-!
Decoders that restore what was stored: they read a stored form as the value it stands for if it
opens no more levels than they may go down. Each form of decoder has one lemma that says so.
-/
namespace Linkage.Json

mutual

def levels : Json → Nat
  | .arr items => levelsOfItems items + 1
  | .obj fields => levelsOfFields fields + 1
  | _ => 0

def levelsOfItems : List Json → Nat
  | [] => 0
  | item :: rest => max (levels item) (levelsOfItems rest)

def levelsOfFields : List (String × Json) → Nat
  | [] => 0
  | (_, value) :: rest => max (levels value) (levelsOfFields rest)

end

theorem levelsOfItems_le {items : List Json} {depth : Nat} :
    levelsOfItems items ≤ depth ↔ ∀ item ∈ items, item.levels ≤ depth := by
  induction items with
  | nil => simp [levelsOfItems]
  | cons item rest ih => rw [levelsOfItems, Nat.max_le, ih, List.forall_mem_cons]

theorem levelsOfFields_le {fields : List (String × Json)} {depth : Nat} :
    levelsOfFields fields ≤ depth ↔ ∀ field ∈ fields, field.2.levels ≤ depth := by
  induction fields with
  | nil => simp [levelsOfFields]
  | cons field rest ih => rw [levelsOfFields, Nat.max_le, ih, List.forall_mem_cons]

namespace Decoder

variable {α β : Type} {limit : Nat} {d : Decoder α} {j : Json} {a : α}

theorem exists_enter {levels depth : Nat} (h : levels + 1 ≤ depth) :
    ∃ inner, enter depth = some inner ∧ inner < depth ∧ levels ≤ inner := by
  obtain ⟨inner, rfl⟩ : ∃ inner, depth = inner + 1 := ⟨depth - 1, by omega⟩
  exact ⟨inner, rfl, Nat.lt_succ_self inner, Nat.le_of_succ_le_succ h⟩

/-- A value is restored from its stored form, at depths below a limit: the form can be written, and
is read as the value. -/
structure Restores (limit : Nat) (d : Decoder α) (j : Json) (a : α) : Prop where
  plain : j.Plain
  reads : ∀ depth < limit, j.levels ≤ depth → d depth j = some a

theorem Restores.map (h : Restores limit d j a) (f : α → β) :
    Restores limit (d.map f) j (f a) where
  plain := h.plain
  reads depth below fits := by rw [Decoder.map, h.reads depth below fits, Option.map_some]

theorem Restores.required (h : Restores limit d j a) {depth : Nat} (below : depth < limit)
    (fits : j.levels ≤ depth) : required d depth (some j) = some a := by
  rw [Decoder.required, Option.bind_some, h.reads depth below fits]

theorem restores_word {bits n : Nat} (h : n < wordBound bits) :
    Restores limit (word bits) (.nat n) n where
  plain := trivial
  reads depth _ _ := by simp [nat, word, h]

theorem restores_int {i : Int} (h : fitsInt64 i = true) : Restores limit int64 (.int i) i where
  plain := trivial
  reads depth _ _ := by simp [int64, h]

theorem restores_bool (b : Bool) : Restores limit boolean (.bool b) b :=
  ⟨trivial, fun _ _ _ => rfl⟩

theorem restores_text (s : String) : Restores limit text (.str s) s :=
  ⟨trivial, fun _ _ _ => rfl⟩

theorem restores_option {encode : α → Json} {o : Option α}
    (h : ∀ a ∈ o, Restores limit d (encode a) a ∧ encode a ≠ .null) :
    Restores limit (option d) (.ofOption encode o) o := by
  cases o with
  | none => exact ⟨trivial, fun _ _ _ => rfl⟩
  | some a =>
    obtain ⟨restores, filled⟩ := h a rfl
    refine ⟨restores.plain, fun depth below fits => ?_⟩
    have read := restores.reads depth below fits
    unfold option ofOption
    split
    · next heq => exact absurd heq filled
    · rw [read, Option.map_some]

theorem mapM_map_eq_some {read : Json → Option α} {encode : α → Json} {as : List α}
    (each : ∀ a ∈ as, read (encode a) = some a) : (as.map encode).mapM read = some as := by
  induction as with
  | nil => rfl
  | cons a rest ih =>
    obtain ⟨first, others⟩ := List.forall_mem_cons.mp each
    simp [first, ih others]

theorem restores_many {encode : α → Json} {as : List α}
    (h : ∀ a ∈ as, Restores limit d (encode a) a) :
    Restores limit (many d) (.arr (as.map encode)) as where
  plain := plainItems_iff.mpr (List.forall_mem_map.mpr fun a ha => (h a ha).plain)
  reads depth below fits := by
    obtain ⟨inner, entered, less, fits⟩ := exists_enter fits
    have each : ∀ a ∈ as, d inner (encode a) = some a := fun a ha =>
      (h a ha).reads inner (Nat.lt_trans less below)
        (levelsOfItems_le.mp fits _ (List.mem_map_of_mem ha))
    simp only [many, entered, Option.bind_eq_bind, Option.bind_some, mapM_map_eq_some each]

theorem filter_key {fields : List (String × Json)} (nodup : (fields.map (·.1)).Nodup)
    {field : String × Json} (h : field ∈ fields) :
    fields.filter (·.1 == field.1) = [field] := by
  induction fields with
  | nil => cases h
  | cons first rest ih =>
    obtain ⟨fresh, nodup⟩ := List.nodup_cons.mp nodup
    rcases List.mem_cons.mp h with rfl | h
    · have none_other : rest.filter (·.1 == field.1) = [] := by
        refine List.filter_eq_nil_iff.mpr fun other hother same => fresh ?_
        exact List.mem_map.mpr ⟨other, hother, beq_iff_eq.mp same⟩
      rw [List.filter_cons_of_pos (by simp), none_other]
    · have differs : (first.1 == field.1) = false :=
        beq_eq_false_iff_ne.mpr fun same => fresh (List.mem_map.mpr ⟨field, h, same.symm⟩)
      rw [List.filter_cons_of_neg (by simp [differs]), ih nodup h]

theorem select_eq {fields : List (String × Json)} (nodup : (fields.map (·.1)).Nodup)
    {wanted : List (String × Json)} (h : ∀ field ∈ wanted, field ∈ fields) :
    select fields (wanted.map (·.1)) = some (wanted.map (some ·.2)) := by
  induction wanted with
  | nil => rfl
  | cons field rest ih =>
    obtain ⟨first, others⟩ := List.forall_mem_cons.mp h
    simp only [List.map_cons, select, filter_key nodup first, ih others]
    rfl

theorem restores_record {fields : List (String × Json)} (nodup : (fields.map (·.1)).Nodup)
    (plain : ∀ field ∈ fields, field.2.Plain)
    (reads : ∀ outer depth,
      (∀ rest : Nat × List (Option Json) → Option α,
        (recordOf (fields.map (·.1)) outer (.obj fields) >>= rest) =
          rest (depth, fields.map (some ·.2))) →
      (∀ {β : Type} {part : Decoder β} {value : Json} {b : β}, Restores limit part value b →
        value ∈ fields.map (·.2) → required part depth (some value) = some b) →
      d outer (.obj fields) = some a) : Restores limit d (.obj fields) a where
  plain := plainFields_iff.mpr plain
  reads outer below fits := by
    obtain ⟨depth, entered, less, fits⟩ := exists_enter fits
    refine reads outer depth (fun rest => ?_) fun restores member => ?_
    · simp [recordOf, entered, select_eq nodup fun _ h => h]
    · obtain ⟨field, hfield, rfl⟩ := List.mem_map.mp member
      exact restores.required (Nat.lt_trans less below) (levelsOfFields_le.mp fits field hfield)

/-- A case is restored if, one level down, its contents are read as the value. -/
theorem restores_case_succ {contents : Json} {tag : String}
    (h : Restores limit (fun depth j => d (depth + 1) (.case tag j)) contents a) :
    Restores (limit + 1) d (.case tag contents) a where
  plain := ⟨h.plain, trivial⟩
  reads depth below fits := by
    obtain ⟨inner, rfl⟩ : ∃ inner, depth = inner + 1 :=
      Nat.exists_eq_add_one.mpr (Nat.lt_of_lt_of_le (Nat.succ_pos _) fits)
    exact h.reads inner (Nat.lt_of_succ_lt_succ below)
      (levelsOfFields_le.mp (Nat.le_of_succ_le_succ fits) _ List.mem_cons_self)

theorem restores_case {contents : Json} {tag : String}
    (h : Restores limit (fun depth j => d (depth + 1) (.case tag j)) contents a) :
    Restores limit d (.case tag contents) a := by
  obtain ⟨plain, reads⟩ := restores_case_succ h
  exact ⟨plain, fun depth below => reads depth (Nat.lt_succ_of_lt below)⟩

end Decoder

end Linkage.Json
