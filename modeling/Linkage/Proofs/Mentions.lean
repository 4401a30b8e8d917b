import Linkage.Proofs.Survivors
import Linkage.Proofs.TySubstitution
/-!
The names that an operation refers to. It refers to the class of an object, to the classes in its
types at any depth and to the names in its attributes at any depth; and a substitution reaches
every one of them.
-/
namespace Linkage

def OpKind.class? : OpKind → Option Name
  | .object ofClass _ => some ofClass
  | _ => none

/-- Every name that an operation refers to: the class of an object, the classes in its types, and
the names in its attributes. -/
def Node.mentions (types : TyStore) (n : Node) : Checked (List Name) := do
  let classes ← n.types.mapM types.classes
  return n.kind.class?.toList ++ classes.flatten ++ n.refs

namespace TyStore

theorem classesWithin_eq {s : TyStore} {fuel : Nat} {id : TyId} {t : TyTree}
    (h : s.treeWithin fuel id = .ok t) : s.classesWithin fuel id = .ok t.classes := by
  induction fuel generalizing id t with
  | zero => cases h
  | succ fuel ih =>
    obtain ⟨ty, parts, hty, hparts, rfl⟩ := treeWithin_succ_eq_ok.mp h
    simp only [classesWithin, hty, ok_bind, TyTree.classes_node]
    split
    · next name =>
      cases hparts
      rfl
    · next other =>
      have none_ : ty.former.classes = [] := by
        cases ty with
        | instanceOf name => exact (other name rfl).elim
        | _ => rfl
      have below : ty.parts.mapM (s.classesWithin fuel) = .ok (parts.map TyTree.classes) :=
        mapM_eq_ok.mpr (List.forall₂_map_right_iff.mpr (hparts.imp fun _ _ hpart => ih hpart))
      rw [below, ok_bind, none_, List.nil_append, List.flatMap_def]
      rfl

theorem Denotes.classes_eq {s : TyStore} {id : TyId} {t : TyTree} (h : s.Denotes id t) :
    s.classes id = .ok t.classes := classesWithin_eq (denotes_iff_tree.mp h)

theorem exists_denotes_of_classesWithin {s : TyStore} {fuel : Nat} {id : TyId}
    {names : List Name} (h : s.classesWithin fuel id = .ok names) : ∃ t, s.Denotes id t := by
  induction fuel generalizing id names with
  | zero => cases h
  | succ fuel ih =>
    simp only [classesWithin, bind_eq_ok] at h
    obtain ⟨ty, hty, h⟩ := h
    suffices parts : ∃ ts, List.Forall₂ s.Denotes ty.parts ts by
      obtain ⟨ts, hts⟩ := parts
      exact ⟨.node ty.former ts, denotes_node_iff.mpr ⟨ty, hty, rfl, hts⟩⟩
    split at h
    · exact ⟨[], .nil⟩
    · obtain ⟨lists, hlists, -⟩ := bind_eq_ok.mp h
      refine exists_forall₂ fun part hpart => ?_
      obtain ⟨names, -, hnames⟩ := forall₂_exists_right (mapM_eq_ok.mp hlists) hpart
      exact ih hnames

theorem mapM_classes_eq {s : TyStore} {ids : List TyId} {ts : List TyTree}
    (h : List.Forall₂ s.Denotes ids ts) : ids.mapM s.classes = .ok (ts.map TyTree.classes) :=
  mapM_eq_ok.mpr (List.forall₂_map_right_iff.mpr (h.imp fun _ _ hd => hd.classes_eq))

theorem mapM_classes_rename {s : TyStore} {ids : List TyId} {ts : List TyTree} {f : Name → Name}
    (h : List.Forall₂ s.Denotes ids (ts.map (TyTree.rename f))) :
    ids.mapM s.classes = .ok ((ts.map TyTree.classes).map (List.map f)) := by
  rw [mapM_classes_eq h, List.map_map, List.map_map]
  exact congrArg Except.ok (List.map_congr_left fun t _ => TyTree.classes_rename f t)

end TyStore

namespace OpKind

theorem class?_substitute (s : Name → Name) (f : TyId → TyId) (kind : OpKind) :
    (kind.substitute s f).class? = kind.class?.map s := by
  cases kind <;> rfl

theorem types_substitute (s : Name → Name) (f : TyId → TyId) (kind : OpKind) :
    (kind.substitute s f).types = kind.types.map f := by
  cases kind <;>
    simp only [substitute, types, ClassHead.substitute, ClassHead.types, ModuleHead.substitute,
      ModuleHead.types, List.map_append, List.map_map, List.map_nil] <;> rfl

end OpKind

namespace Node

theorem types_substitute (s : Name → Name) (f : TyId → TyId) (n : Node) :
    (n.substitute s f).types = n.types.map f := by
  simp only [types, substitute, OpKind.types_substitute, List.map_append]

theorem refs_substitute (s : Name → Name) (f : TyId → TyId) (n : Node) :
    (n.substitute s f).refs = n.refs.map s := by
  simp only [refs, substitute, List.flatMap_map, List.map_flatMap, ← Attr.rename_eq,
    Attr.refs_rename]

theorem class?_substitute (s : Name → Name) (f : TyId → TyId) (n : Node) :
    (n.substitute s f).kind.class? = n.kind.class?.map s := n.kind.class?_substitute s f

/-- After a substitution an operation refers, place by place, to what the names became. -/
theorem mentions_substitute {types types' : TyStore} {s : Name → Name} {f : TyId → TyId}
    {n : Node} {ts : List TyTree} (h : List.Forall₂ types.Denotes n.types ts)
    (h' : List.Forall₂ types'.Denotes (n.types.map f) (ts.map (TyTree.rename s))) :
    ∃ names, n.mentions types = .ok names ∧
      (n.substitute s f).mentions types' = .ok (names.map s) := by
  refine ⟨n.kind.class?.toList ++ (ts.map TyTree.classes).flatten ++ n.refs, ?_, ?_⟩
  · rw [mentions, TyStore.mapM_classes_eq h]
    rfl
  · rw [mentions, types_substitute, TyStore.mapM_classes_rename h', ok_bind, class?_substitute,
      refs_substitute, ← List.map_flatten, List.map_append, List.map_append]
    cases n.kind.class? <;> rfl

end Node

end Linkage
