import Linkage.Proofs.Sequence
import Linkage.Ty.Store
/-!
Types written out. An id stands for a tree, in which equal parts are written as often as they
occur, so trees of two stores can be compared. A store in which every part has its type and no
type contains itself gives every id a tree, and a store that grows changes none of them.
-/
namespace Linkage

inductive Former where
  | word (width : Nat) (signed : Bool)
  | integer
  | bool
  | str
  | list
  | map
  | tuple
  | instanceOf (name : Name)
  | path
  | any
deriving DecidableEq

def Ty.former : Ty → Former
  | .word width signed => .word width signed
  | .integer => .integer
  | .bool => .bool
  | .str => .str
  | .list _ => .list
  | .map _ _ => .map
  | .tuple _ => .tuple
  | .instanceOf name => .instanceOf name
  | .path => .path
  | .any => .any

namespace Former

def rename (f : Name → Name) : Former → Former
  | .instanceOf name => .instanceOf (f name)
  | former => former

def classes : Former → List Name
  | .instanceOf name => [name]
  | _ => []

theorem classes_rename (f : Name → Name) (former : Former) :
    (former.rename f).classes = former.classes.map f := by
  cases former <;> rfl

theorem rename_eq_iff {f g : Name → Name} {former : Former} :
    former.rename f = former.rename g ↔ ∀ name ∈ former.classes, f name = g name := by
  cases former <;> simp [rename, classes]

end Former

theorem Ty.former_withParts (ty : Ty) (ids : List TyId) :
    (ty.withParts ids).former = ty.former := by
  unfold Ty.withParts
  split <;> rfl

inductive TyTree where
  | node (former : Former) (parts : List TyTree)

namespace TyTree

instance : Inhabited TyTree := ⟨.node .any []⟩

@[induction_eliminator]
theorem induction {motive : TyTree → Prop}
    (node : ∀ former parts, (∀ t ∈ parts, motive t) → motive (.node former parts)) :
    ∀ t, motive t
  | .node former parts => node former parts fun t _ => induction node t

mutual

def rename (f : Name → Name) : TyTree → TyTree
  | .node former parts => .node (former.rename f) (renameAll f parts)

def renameAll (f : Name → Name) : List TyTree → List TyTree
  | [] => []
  | t :: rest => rename f t :: renameAll f rest

end

mutual

def classes : TyTree → List Name
  | .node former parts => former.classes ++ classesOfAll parts

def classesOfAll : List TyTree → List Name
  | [] => []
  | t :: rest => classes t ++ classesOfAll rest

end

mutual

def height : TyTree → Nat
  | .node _ parts => heightOfAll parts + 1

def heightOfAll : List TyTree → Nat
  | [] => 0
  | t :: rest => max (height t) (heightOfAll rest)

end

theorem renameAll_eq_map (f : Name → Name) (ts : List TyTree) :
    renameAll f ts = ts.map (rename f) := by
  induction ts with
  | nil => rfl
  | cons t rest ih => simp only [renameAll, ih, List.map_cons]

theorem classesOfAll_eq_flatMap (ts : List TyTree) : classesOfAll ts = ts.flatMap classes := by
  induction ts with
  | nil => rfl
  | cons t rest ih => simp only [classesOfAll, ih, List.flatMap_cons]

theorem rename_node (f : Name → Name) (former : Former) (parts : List TyTree) :
    (node former parts).rename f = .node (former.rename f) (parts.map (rename f)) := by
  simp only [rename, renameAll_eq_map]

theorem classes_node (former : Former) (parts : List TyTree) :
    (node former parts).classes = former.classes ++ parts.flatMap classes := by
  simp only [classes, classesOfAll_eq_flatMap]

theorem classes_rename (f : Name → Name) (t : TyTree) :
    (t.rename f).classes = t.classes.map f := by
  induction t with
  | node former parts ih =>
    simp only [rename_node, classes_node, Former.classes_rename, List.map_append,
      List.flatMap_map, List.map_flatMap]
    rw [List.flatMap_congr ih]

theorem rename_eq_iff {f g : Name → Name} {t : TyTree} :
    t.rename f = t.rename g ↔ ∀ name ∈ t.classes, f name = g name := by
  induction t with
  | node former parts ih =>
    simp only [rename_node, classes_node, node.injEq, Former.rename_eq_iff, List.map_inj_left,
      List.mem_append, List.mem_flatMap]
    constructor
    · rintro ⟨head, rest⟩ name (hname | ⟨t, ht, hname⟩)
      · exact head name hname
      · exact (ih t ht).mp (rest t ht) name hname
    · intro agree
      exact ⟨fun name hname => agree name (.inl hname),
        fun t ht => (ih t ht).mpr fun name hname => agree name (.inr ⟨t, ht, hname⟩)⟩

theorem rename_id (t : TyTree) : t.rename id = t := by
  induction t with
  | node former parts ih =>
    have same : parts.map (rename id) = parts := by
      rw [List.map_congr_left ih, List.map_id']
    rw [rename_node, same]
    cases former <;> rfl

theorem rename_eq_self_iff {f : Name → Name} {t : TyTree} :
    t.rename f = t ↔ ∀ name ∈ t.classes, f name = name := by
  have apart : t.rename f = t.rename id ↔ ∀ name ∈ t.classes, f name = name := rename_eq_iff
  rwa [rename_id] at apart

theorem rename_eq_self {f : Name → Name} {t : TyTree} (fixed : ∀ name ∈ t.classes, f name = name) :
    t.rename f = t := rename_eq_self_iff.mpr fixed

theorem height_le_heightOfAll {t : TyTree} {ts : List TyTree} (h : t ∈ ts) :
    t.height ≤ heightOfAll ts := by
  induction ts with
  | nil => cases h
  | cons head rest ih =>
    rcases List.mem_cons.mp h with rfl | h
    · exact Nat.le_max_left _ _
    · exact Nat.le_trans (ih h) (Nat.le_max_right _ _)

theorem exists_mem_heightOfAll {ts : List TyTree} (h : 0 < heightOfAll ts) :
    ∃ t ∈ ts, t.height = heightOfAll ts := by
  induction ts with
  | nil => cases h
  | cons head rest ih =>
    rcases Nat.le_total (heightOfAll rest) head.height with hle | hle
    · exact ⟨head, List.mem_cons_self, (Nat.max_eq_left hle).symm⟩
    · have top : heightOfAll (head :: rest) = heightOfAll rest := Nat.max_eq_right hle
      obtain ⟨t, ht, heq⟩ := ih (top ▸ h)
      exact ⟨t, List.mem_cons_of_mem _ ht, heq.trans top.symm⟩

end TyTree

end Linkage
