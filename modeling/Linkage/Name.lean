import Linkage.Checked
/-!
Names and the lexicon that gives them their texts. Two names of one lexicon are equal exactly if
their texts are, so the passes compare names and never texts.
-/
namespace Linkage

/-- A name, written as the position of its text in the lexicon. -/
structure Name where
  index : Nat
deriving DecidableEq

/-- Every text seen so far, each once, in the order of first appearance. -/
structure Lexicon where
  texts : Array String
  nodup : texts.toList.Nodup

namespace Lexicon

def empty : Lexicon := ⟨#[], by simp⟩

instance : Inhabited Lexicon := ⟨empty⟩

def size (l : Lexicon) : Nat := l.texts.size

def isEmpty (l : Lexicon) : Bool := l.texts.isEmpty

def get? (l : Lexicon) (text : String) : Option Name :=
  (l.texts.idxOf? text).map Name.mk

theorem not_mem_of_get?_eq_none {l : Lexicon} {text : String} (h : l.get? text = none) :
    text ∉ l.texts.toList := by
  simpa [get?] using h

def intern (l : Lexicon) (text : String) : Name × Lexicon :=
  match h : l.get? text with
  | some name => (name, l)
  | none =>
    (⟨l.size⟩, ⟨l.texts.push text, by
      have fresh := not_mem_of_get?_eq_none h
      rw [Array.toList_push, List.nodup_append]
      refine ⟨l.nodup, by simp, fun a ha b hb => ?_⟩
      rintro rfl
      rw [List.mem_singleton.1 hb] at ha
      exact fresh ha⟩)

/-- The text of a name. A name of another lexicon need not have one. -/
def text (l : Lexicon) (name : Name) : Checked String :=
  match l.texts[name.index]? with
  | some text => .ok text
  | none => .error (.unknownName name.index)

theorem exists_text {l : Lexicon} {name : Name} (h : name.index < l.size) :
    ∃ text, l.text name = .ok text := by
  have found : l.texts[name.index]? = some l.texts[name.index] := Array.getElem?_eq_getElem h
  exact ⟨l.texts[name.index], by simp only [text, found]⟩

theorem lt_size_of_text {l : Lexicon} {name : Name} {text : String}
    (h : l.text name = .ok text) : name.index < l.size := by
  unfold Lexicon.text at h
  split at h
  · next found => exact (Array.getElem?_eq_some_iff.1 found).1
  · cases h

theorem get?_eq_some {l : Lexicon} {text : String} {name : Name} (h : l.get? text = some name) :
    l.texts[name.index]? = some text := by
  simp only [get?, Array.idxOf?_eq_map_finIdxOf?_val, Option.map_eq_some_iff] at h
  obtain ⟨_, ⟨i, hi, rfl⟩, rfl⟩ := h
  exact Array.getElem?_eq_some_iff.2 ⟨i.isLt, (Array.finIdxOf?_eq_some_iff.1 hi).1⟩

theorem text_intern (l : Lexicon) (text : String) :
    (l.intern text).2.text (l.intern text).1 = .ok text := by
  unfold intern
  split
  · next name h => simp only [Lexicon.text, get?_eq_some h]
  · simp only [Lexicon.text, size, Array.getElem?_push_size]

theorem text_intern_of_lt (l : Lexicon) (text : String) {name : Name} (h : name.index < l.size) :
    (l.intern text).2.text name = l.text name := by
  unfold intern
  split
  · rfl
  · have ne : name.index ≠ l.texts.size := Nat.ne_of_lt h
    simp only [Lexicon.text, Array.getElem?_push, if_neg ne]

end Lexicon

end Linkage
