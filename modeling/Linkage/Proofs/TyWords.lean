import Linkage.Proofs.Denotation
/-!
Types put into words. What is written for an id depends on the tree it stands for and on the texts
of the classes in it, so an id of a type can be written if it stands for a tree and the lexicon has
the classes.
-/
namespace Linkage

def Former.text (lexicon : Lexicon) : Former → List String → Checked String
  | .word width true, _ => .ok s!"si{width}"
  | .word width false, _ => .ok s!"i{width}"
  | .integer, _ => .ok "integer"
  | .bool, _ => .ok "bool"
  | .str, _ => .ok "string"
  | .path, _ => .ok "path"
  | .any, _ => .ok "any"
  | .instanceOf name, _ => do
    let name ← lexicon.text name
    return s!"class<@{name}>"
  | .list, [element] => .ok s!"list<{element}>"
  | .map, [key, value] => .ok s!"map<{key}, {value}>"
  | .tuple, elements =>
    let inner := ", ".intercalate elements
    .ok s!"tuple<{inner}>"
  | _, _ => .ok ""

theorem Former.text_congr {l l' : Lexicon} {former : Former}
    (agree : ∀ name ∈ former.classes, l.text name = l'.text name) (parts : List String) :
    former.text l parts = former.text l' parts := by
  cases former with
  | instanceOf name =>
    have same := agree name List.mem_cons_self
    simp only [text, same]
  | word width signed => cases signed <;> rfl
  | list => rcases parts with _ | ⟨_, _ | _⟩ <;> rfl
  | map => rcases parts with _ | ⟨_, _ | ⟨_, _ | _⟩⟩ <;> rfl
  | _ => rfl

theorem Former.exists_text {l : Lexicon} {former : Former}
    (known : ∀ name ∈ former.classes, name.index < l.size) (parts : List String) :
    ∃ text, former.text l parts = .ok text := by
  cases former with
  | instanceOf name =>
    obtain ⟨text, htext⟩ := Lexicon.exists_text (known name List.mem_cons_self)
    exact ⟨_, by simp only [Former.text, htext]; rfl⟩
  | word width signed => cases signed <;> exact ⟨_, rfl⟩
  | list => rcases parts with _ | ⟨_, _ | _⟩ <;> exact ⟨_, rfl⟩
  | map => rcases parts with _ | ⟨_, _ | ⟨_, _ | _⟩⟩ <;> exact ⟨_, rfl⟩
  | _ => exact ⟨_, rfl⟩

namespace TyTree

mutual

def text (lexicon : Lexicon) : TyTree → Checked String
  | .node former parts => do
    let parts ← textOfAll lexicon parts
    former.text lexicon parts

def textOfAll (lexicon : Lexicon) : List TyTree → Checked (List String)
  | [] => .ok []
  | t :: rest => do
    let first ← text lexicon t
    let others ← textOfAll lexicon rest
    return first :: others

end

theorem textOfAll_eq_mapM (lexicon : Lexicon) (ts : List TyTree) :
    textOfAll lexicon ts = ts.mapM (text lexicon) := by
  induction ts with
  | nil => rfl
  | cons t rest ih => rw [textOfAll, ih, List.mapM_cons]

theorem text_node (lexicon : Lexicon) (former : Former) (parts : List TyTree) :
    (node former parts).text lexicon = parts.mapM (text lexicon) >>= former.text lexicon := by
  simp only [text, textOfAll_eq_mapM]

theorem text_congr {l l' : Lexicon} {t : TyTree}
    (agree : ∀ name ∈ t.classes, l.text name = l'.text name) : t.text l = t.text l' := by
  induction t with
  | node former parts ih =>
    simp only [classes_node, List.mem_append, List.mem_flatMap] at agree
    have inner : parts.mapM (text l) = parts.mapM (text l') := by
      refine mapM_congr (List.forall₂_same.mpr fun t ht => ?_)
      exact ih t ht fun name hname => agree name (.inr ⟨t, ht, hname⟩)
    rw [text_node, text_node, inner]
    refine congrArg _ (funext fun words => ?_)
    exact Former.text_congr (fun name hname => agree name (.inl hname)) words

theorem exists_text {l : Lexicon} {t : TyTree} (known : ∀ name ∈ t.classes, name.index < l.size) :
    ∃ text, t.text l = .ok text := by
  induction t with
  | node former parts ih =>
    simp only [classes_node, List.mem_append, List.mem_flatMap] at known
    obtain ⟨words, hwords⟩ := exists_forall₂ fun t ht =>
      ih t ht fun name hname => known name (.inr ⟨t, ht, hname⟩)
    rw [text_node, mapM_eq_ok.mpr hwords]
    exact Former.exists_text (fun name hname => known name (.inl hname)) words

end TyTree

namespace TyStore

theorem displayWithin_eq (lexicon : Lexicon) {s : TyStore} {fuel : Nat} {id : TyId} {t : TyTree}
    (h : s.treeWithin fuel id = .ok t) : s.displayWithin lexicon fuel id = t.text lexicon := by
  induction fuel generalizing id t with
  | zero => cases h
  | succ fuel ih =>
    obtain ⟨ty, parts, hty, hparts, rfl⟩ := treeWithin_succ_eq_ok.mp h
    have words : List.Forall₂ (fun part t =>
        s.displayWithin lexicon fuel part = TyTree.text lexicon t) ty.parts parts :=
      hparts.imp fun _ _ hpart => ih hpart
    simp only [displayWithin, hty, ok_bind, TyTree.text_node]
    cases ty with
    | list element =>
      obtain ⟨t, _, helement, hnil, rfl⟩ := List.forall₂_cons_left_iff.mp words
      obtain rfl := List.forall₂_nil_left_iff.mp hnil
      simp only [helement, List.mapM_cons, List.mapM_nil]
      cases t.text lexicon <;> rfl
    | map key value =>
      obtain ⟨k, _, hkey, hrest, rfl⟩ := List.forall₂_cons_left_iff.mp words
      obtain ⟨v, _, hvalue, hnil, rfl⟩ := List.forall₂_cons_left_iff.mp hrest
      obtain rfl := List.forall₂_nil_left_iff.mp hnil
      simp only [hkey, hvalue, List.mapM_cons, List.mapM_nil]
      cases k.text lexicon <;> cases v.text lexicon <;> rfl
    | tuple elements =>
      rw [← mapM_congr words]
      rfl
    | word width signed =>
      obtain rfl := List.forall₂_nil_left_iff.mp words
      cases signed <;> rfl
    | _ =>
      obtain rfl := List.forall₂_nil_left_iff.mp words
      rfl

theorem Denotes.display_eq (lexicon : Lexicon) {s : TyStore} {id : TyId} {t : TyTree}
    (h : s.Denotes id t) : s.display lexicon id = t.text lexicon :=
  displayWithin_eq lexicon (denotes_iff_tree.mp h)

theorem mem_toList_of_get {s : TyStore} {id : TyId} {ty : Ty} (h : s.get id = .ok ty) :
    ty ∈ s.toList := Array.mem_toList_iff.mpr (Array.mem_of_getElem? (get_eq_ok_iff.mp h))

theorem mem_toList_intern {s : TyStore} {ty stored : Ty}
    (h : stored ∈ (s.intern ty).2.toList) : stored ∈ s.toList ∨ stored = ty := by
  unfold intern at h
  split at h
  · exact .inl h
  · simpa [toList] using h

theorem Denotes.classes_known {known : Name → Prop} {s : TyStore} {id : TyId} {t : TyTree}
    (h : s.Denotes id t) (stored : ∀ ty ∈ s.toList, ∀ name ∈ ty.former.classes, known name) :
    ∀ name ∈ t.classes, known name := by
  induction t generalizing id with
  | node former parts ih =>
    obtain ⟨ty, hty, rfl, hparts⟩ := denotes_node_iff.mp h
    intro name hname
    rw [TyTree.classes_node, List.mem_append, List.mem_flatMap] at hname
    rcases hname with hname | ⟨t, ht, hname⟩
    · exact stored ty (mem_toList_of_get hty) name hname
    · obtain ⟨part, -, hpart⟩ := forall₂_exists_left hparts ht
      exact ih t ht hpart name hname

end TyStore

end Linkage
