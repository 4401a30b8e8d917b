import Linkage.Link.Declared
import Linkage.Proofs.Planting
import Linkage.Proofs.Sweeping
/-!
What collecting and rewriting leave of a unit, told on its trees. Collecting keeps the declarations
at top level as they are; rewriting takes the stubs out at every depth and passes every operation
that remains through one substitution.
-/
namespace Linkage

namespace Attr

mutual

/-- One substitution for every name that an attribute refers to, at any depth. -/
def substitute (s : Name → Name) : Attr → Attr
  | .ref name => .ref (s name)
  | .array items => .array (substituteItems s items)
  | .dict entries => .dict (substituteEntries s entries)
  | .int value => .int value
  | .str value => .str value
  | .bool value => .bool value

def substituteItems (s : Name → Name) : List Attr → List Attr
  | [] => []
  | item :: rest => substitute s item :: substituteItems s rest

def substituteEntries (s : Name → Name) : List (Name × Attr) → List (Name × Attr)
  | [] => []
  | (key, value) :: rest => (key, substitute s value) :: substituteEntries s rest

end

mutual

theorem rename_eq (s : Name → Name) (a : Attr) : a.rename s = a.substitute s := by
  cases a with
  | array items => exact congrArg Attr.array (renameItems_eq s items)
  | dict entries => exact congrArg Attr.dict (renameEntries_eq s entries)
  | _ => rfl

theorem renameItems_eq (s : Name → Name) (items : List Attr) :
    renameItems s items = substituteItems s items := by
  cases items with
  | nil => rfl
  | cons item rest =>
    rw [renameItems, substituteItems, rename_eq s item, renameItems_eq s rest]

theorem renameEntries_eq (s : Name → Name) (entries : List (Name × Attr)) :
    renameEntries s entries = substituteEntries s entries := by
  cases entries with
  | nil => rfl
  | cons entry rest =>
    rw [renameEntries, substituteEntries, rename_eq s entry.2, renameEntries_eq s rest]

end

end Attr

def ClassHead.substitute (s : Name → Name) (f : TyId → TyId) (head : ClassHead) : ClassHead where
  name := s head.name
  params := head.params.map fun param => ⟨param.name, f param.ty⟩
  fields := head.fields.map fun field => ⟨field.name, f field.ty, field.span⟩

def ModuleHead.substitute (s : Name → Name) (f : TyId → TyId) (head : ModuleHead) : ModuleHead where
  name := s head.name
  ports := head.ports.map fun port => ⟨port.name, port.direction, f port.ty⟩

namespace OpKind

/-- One substitution for the declared name and the class of an object, and one for every type. -/
def substitute (s : Name → Name) (f : TyId → TyId) : OpKind → OpKind
  | .classDef head => .classDef (head.substitute s f)
  | .classStub head => .classStub (head.substitute s f)
  | .moduleDef visibility head => .moduleDef visibility (head.substitute s f)
  | .moduleStub head => .moduleStub (head.substitute s f)
  | .object ofClass actuals => .object (s ofClass) (actuals.map f)
  | .generic opcode => .generic opcode

def isDefinition : OpKind → Bool
  | .classDef _ | .moduleDef _ _ => true
  | _ => false

end OpKind

/-- One substitution for every name that an operation mentions, with its types replaced. -/
def Node.substitute (s : Name → Name) (f : TyId → TyId) (n : Node) : Node where
  kind := n.kind.substitute s f
  span := n.span
  attrs := n.attrs.map fun (key, value) => (key, value.substitute s)
  results := n.results.map f

/-- Rewriting an operation is one substitution: whatever the renaming maps names to, none is
renamed twice. -/
theorem Node.rewrite_eq (renames : Renaming) (unit : Nat) (remap : TyRemap) (n : Node) :
    n.rewrite renames unit remap = n.substitute (renames.apply unit) remap.apply := by
  obtain ⟨kind, span, attrs, results⟩ := n
  -- the declared name is looked up first, and the class of an object then
  have declares : ∀ name : Name, kind.declared? = some name →
      (Node.mk kind span attrs results).rewrite renames unit remap =
        (Node.mk kind span attrs results).substitute (renames.apply unit) remap.apply := by
    intro name hname
    cases found : renames.get? unit name with
    | none =>
      have stays : renames.apply unit name = name := by rw [Renaming.apply, found]; rfl
      cases kind <;> cases hname <;>
        simp only [rewrite, substitute, OpKind.declared?, Option.bind_some, found, mapRefs,
          Attr.rename_eq, OpKind.substitute, ClassHead.substitute, ModuleHead.substitute,
          stays] <;> rfl
    | some new =>
      have becomes : renames.apply unit name = new := by rw [Renaming.apply, found]; rfl
      cases kind <;> cases hname <;>
        simp only [rewrite, substitute, OpKind.declared?, Option.bind_some, found, mapRefs,
          Attr.rename_eq, OpKind.substitute, ClassHead.substitute, ModuleHead.substitute,
          becomes] <;> rfl
  cases kind with
  | object ofClass actuals =>
    simp only [rewrite, substitute, mapRefs, Attr.rename_eq]
    rfl
  | generic opcode =>
    simp only [rewrite, substitute, mapRefs, Attr.rename_eq]
    rfl
  | classDef head => exact declares head.name rfl
  | classStub head => exact declares head.name rfl
  | moduleDef visibility head => exact declares head.name rfl
  | moduleStub head => exact declares head.name rfl

namespace Tree

def root : Tree → Node
  | .node root _ => root

mutual

def nodes : Tree → List Node
  | .node root regions => root :: nodesOfRegions regions

def nodesOfList : List Tree → List Node
  | [] => []
  | t :: rest => nodes t ++ nodesOfList rest

def nodesOfRegions : List (List Tree) → List Node
  | [] => []
  | region :: rest => nodesOfList region ++ nodesOfRegions rest

end

mutual

def mapNodes (f : Node → Node) : Tree → Tree
  | .node root regions => .node (f root) (mapNodesOfRegions f regions)

def mapNodesOfList (f : Node → Node) : List Tree → List Tree
  | [] => []
  | t :: rest => mapNodes f t :: mapNodesOfList f rest

def mapNodesOfRegions (f : Node → Node) : List (List Tree) → List (List Tree)
  | [] => []
  | region :: rest => mapNodesOfList f region :: mapNodesOfRegions f rest

end

mutual

def withoutStubs : Tree → Tree
  | .node root regions => .node root (dropStubsOfRegions regions)

/-- The trees that are no stubs, each without the stubs below its root. -/
def dropStubs : List Tree → List Tree
  | [] => []
  | t :: rest => if t.root.kind.isStub then dropStubs rest else withoutStubs t :: dropStubs rest

def dropStubsOfRegions : List (List Tree) → List (List Tree)
  | [] => []
  | region :: rest => dropStubs region :: dropStubsOfRegions rest

end

theorem mapNodesOfList_eq_map (f : Node → Node) (ts : List Tree) :
    mapNodesOfList f ts = ts.map (mapNodes f) := by
  induction ts with
  | nil => rfl
  | cons t rest ih => simp only [mapNodesOfList, ih, List.map_cons]

theorem mapNodes_node (f : Node → Node) (root : Node) (regions : List (List Tree)) :
    (node root regions).mapNodes f = .node (f root) (regions.map (·.map (mapNodes f))) := by
  have nested : mapNodesOfRegions f regions = regions.map (·.map (mapNodes f)) := by
    induction regions with
    | nil => rfl
    | cons region rest ih =>
      simp only [mapNodesOfRegions, mapNodesOfList_eq_map, ih, List.map_cons]
  rw [mapNodes, nested]

theorem nodesOfList_eq_flatMap (ts : List Tree) : nodesOfList ts = ts.flatMap nodes := by
  induction ts with
  | nil => rfl
  | cons t rest ih => simp only [nodesOfList, ih, List.flatMap_cons]

theorem nodes_node (root : Node) (regions : List (List Tree)) :
    (node root regions).nodes = root :: regions.flatten.flatMap nodes := by
  have nested : nodesOfRegions regions = regions.flatten.flatMap nodes := by
    induction regions with
    | nil => rfl
    | cons region rest ih =>
      simp only [nodesOfRegions, nodesOfList_eq_flatMap, ih, List.flatten_cons,
        List.flatMap_append]
  rw [nodes, nested]

theorem root_mem_nodes (t : Tree) : t.root ∈ t.nodes := by
  cases t
  rw [nodes_node]
  exact List.mem_cons_self

theorem dropStubs_eq (ts : List Tree) :
    dropStubs ts = (ts.filter (!·.root.kind.isStub)).map withoutStubs := by
  induction ts with
  | nil => rfl
  | cons t rest ih =>
    unfold dropStubs
    by_cases h : t.root.kind.isStub = true
    · rw [if_pos h, ih, List.filter_cons_of_neg (by simp [h])]
    · rw [if_neg h, ih, List.filter_cons_of_pos (by simp [h]), List.map_cons]

theorem withoutStubs_node (root : Node) (regions : List (List Tree)) :
    (node root regions).withoutStubs = .node root (regions.map dropStubs) := by
  have nested : dropStubsOfRegions regions = regions.map dropStubs := by
    induction regions with
    | nil => rfl
    | cons region rest ih => simp only [dropStubsOfRegions, ih, List.map_cons]
  rw [withoutStubs, nested]

theorem root_mapNodes (f : Node → Node) (t : Tree) : (t.mapNodes f).root = f t.root := by
  cases t; rfl

theorem root_withoutStubs (t : Tree) : t.withoutStubs.root = t.root := by
  cases t; rfl

theorem nodes_mapNodes (f : Node → Node) (t : Tree) :
    (t.mapNodes f).nodes = t.nodes.map f := by
  induction t with
  | node root regions ih =>
    rw [mapNodes_node, nodes_node, nodes_node, List.map_cons, ← List.map_flatten,
      List.flatMap_map, List.map_flatMap]
    refine congrArg _ (List.flatMap_congr fun t ht => ?_)
    obtain ⟨region, hregion, hmem⟩ := List.mem_flatten.mp ht
    exact ih region hregion t hmem

/-- Taking stubs out takes operations out and changes none. -/
theorem nodes_withoutStubs_sublist (t : Tree) : t.withoutStubs.nodes.Sublist t.nodes := by
  induction t with
  | node root regions ih =>
    rw [withoutStubs_node, nodes_node, nodes_node, List.cons_sublist_cons]
    have inRegion : ∀ region ∈ regions,
        ((dropStubs region).flatMap nodes).Sublist (region.flatMap nodes) := by
      intro region hregion
      have each := ih region hregion
      clear ih hregion
      induction region with
      | nil => exact .slnil
      | cons t rest ih =>
        have others := ih fun s hs => each s (List.mem_cons_of_mem t hs)
        unfold dropStubs
        split
        · exact others.trans (List.sublist_append_right _ _)
        · rw [List.flatMap_cons, List.flatMap_cons]
          exact (each t List.mem_cons_self).append others
    clear ih
    induction regions with
    | nil => exact .slnil
    | cons region rest ih =>
      rw [List.map_cons, List.flatten_cons, List.flatten_cons, List.flatMap_append,
        List.flatMap_append]
      exact (inRegion region List.mem_cons_self).append
        (ih fun r hr => inRegion r (List.mem_cons_of_mem region hr))

end Tree

end Linkage
