import Linkage.Proofs.Survivors
/-!
The two passes over a unit. On a forest both go through: collecting answers with the declarations
at top level and keeps just those, rewriting takes out the stubs and renames what is left.
-/
namespace Linkage

namespace OpKind

def declaration? : OpKind → Option (Space × Name)
  | .classDef head | .classStub head => some (.classes, head.name)
  | .moduleDef _ head | .moduleStub head => some (.modules, head.name)
  | .object _ _ | .generic _ => none

theorem declared?_eq (kind : OpKind) : kind.declared? = kind.declaration?.map (·.2) := by
  cases kind <;> rfl

theorem isDefinition_eq (kind : OpKind) :
    kind.isDefinition = (kind.declaration?.isSome && !kind.isStub) := by
  cases kind <;> rfl

end OpKind

namespace Node

variable (s : Name → Name) (f : TyId → TyId) (n : Node)

theorem isStub_substitute : (n.substitute s f).kind.isStub = n.kind.isStub := by
  obtain ⟨kind, span, attrs, results⟩ := n
  cases kind <;> rfl

theorem declaration?_substitute :
    (n.substitute s f).kind.declaration? =
      n.kind.declaration?.map fun e => (e.1, s e.2) := by
  obtain ⟨kind, span, attrs, results⟩ := n
  cases kind <;> rfl

theorem declared?_substitute :
    (n.substitute s f).kind.declared? = n.kind.declared?.map s := by
  obtain ⟨kind, span, attrs, results⟩ := n
  cases kind <;> rfl

theorem isSome_declaration?_substitute :
    (n.substitute s f).kind.declaration?.isSome = n.kind.declaration?.isSome := by
  rw [declaration?_substitute, Option.isSome_map]

theorem isDefinition_substitute :
    (n.substitute s f).kind.isDefinition = n.kind.isDefinition := by
  rw [OpKind.isDefinition_eq, OpKind.isDefinition_eq, isStub_substitute,
    isSome_declaration?_substitute]

end Node

namespace Declared

def of (d : Declared) : Space → List Declaration
  | .classes => d.classes
  | .modules => d.modules

theorem note_of_declares {op : Op} {space : Space} {name : Name}
    (h : op.kind.declaration? = some (space, name)) (id : OpId) (d : Declared) :
    ∃ d', note id op d = (.keep, op.toNode, d') ∧
      ∀ s, d'.of s = d.of s ++ if space = s then [⟨name, id⟩] else [] := by
  unfold note
  cases hkind : op.kind with
  | object ofClass actuals => rw [hkind] at h; cases h
  | generic opcode => rw [hkind] at h; cases h
  | _ => rw [hkind] at h; cases h; exact ⟨_, rfl, fun s => by cases s <;> simp [of]⟩

theorem note_of_other {op : Op} (h : op.kind.declaration? = none) (id : OpId) (d : Declared) :
    note id op d = (.erase, op.toNode, d) := by
  unfold note
  cases hkind : op.kind with
  | object ofClass actuals => rfl
  | generic opcode => rfl
  | _ => rw [hkind] at h; cases h

end Declared

namespace Placed

variable {σ : Type} {visit : Visitor σ} {p : Placed} {rest : List Placed} {s s' : σ}

theorem sweepList_of_keep (h : visit p.id p.op s = (.keep, p.op.toNode, s')) :
    sweepList visit (p :: rest) s =
      (p :: (sweepList visit rest s').1, (sweepList visit rest s').2) := by
  obtain ⟨id, root, regions⟩ := p
  have h' : visit id (node id root regions).op s = (.keep, root, s') := h
  simp only [sweepList, sweep, h', Option.toList_some, List.singleton_append]

theorem sweepList_of_erase {root : Node} (h : visit p.id p.op s = (.erase, root, s')) :
    sweepList visit (p :: rest) s = sweepList visit rest s' := by
  obtain ⟨id, _, regions⟩ := p
  have h' : visit id (node id _ regions).op s = (.erase, root, s') := h
  simp only [sweepList, sweep, h', Option.toList_none, List.nil_append]

def declarationIn (space : Space) (p : Placed) : Option Declaration :=
  match p.op.kind.declaration? with
  | some (found, name) => if found = space then some ⟨name, p.id⟩ else none
  | none => none

/-- Collecting looks at the roots: it keeps the declarations and notes them by their kinds. -/
theorem sweepList_note (ps : List Placed) (d : Declared) :
    (sweepList Declared.note ps d).1 = ps.filter (·.op.kind.declaration?.isSome) ∧
      ∀ space, (sweepList Declared.note ps d).2.of space =
        d.of space ++ ps.filterMap (declarationIn space) := by
  induction ps generalizing d with
  | nil => exact ⟨rfl, fun space => (List.append_nil _).symm⟩
  | cons p rest ih =>
    cases h : p.op.kind.declaration? with
    | none =>
      rw [sweepList_of_erase (Declared.note_of_other h p.id d)]
      obtain ⟨hkept, hnoted⟩ := ih d
      refine ⟨?_, fun space => ?_⟩
      · rw [hkept, List.filter_cons_of_neg (by simp [h])]
      · rw [hnoted, List.filterMap_cons_none (by simp only [declarationIn, h])]
    | some declaration =>
      obtain ⟨found, name⟩ := declaration
      obtain ⟨d', hnote, hd'⟩ := Declared.note_of_declares h p.id d
      rw [sweepList_of_keep hnote]
      obtain ⟨hkept, hnoted⟩ := ih d'
      refine ⟨?_, fun space => ?_⟩
      · rw [List.filter_cons_of_pos (by simp [h]), hkept]
      · rw [hnoted, hd', List.append_assoc]
        by_cases hs : found = space
        · have noted : declarationIn space p = some ⟨name, p.id⟩ := by
            simp only [declarationIn, h, if_pos hs]
          rw [List.filterMap_cons_some noted, if_pos hs, List.singleton_append]
        · have skipped : declarationIn space p = none := by
            simp only [declarationIn, h, if_neg hs]
          rw [List.filterMap_cons_none skipped, if_neg hs, List.nil_append]

end Placed

/-- Collecting from a forest keeps the declarations at top level as they stand, and counts the
operations that go. -/
theorem LinkUnit.collect_forest_ends {u : LinkUnit} {ps : List Placed} (h : u.Unfolds ps) :
    Ends (fun c => c.unit.Unfolds (ps.filter (·.op.kind.declaration?.isSome)) ∧
      c.unit.tag = u.tag ∧
      (∀ space, c.declared.of space = ps.filterMap (Placed.declarationIn space)) ∧
      c.debris + ((ps.filter (·.op.kind.declaration?.isSome)).flatMap Placed.entries).length =
        (ps.flatMap Placed.entries).length ∧
      c.unit.ops.live + c.debris = u.ops.live)
      (u.ops.RunsOut (ps.flatMap Placed.entries).length) u.collect := by
  obtain ⟨hroots, hnoted⟩ := Placed.sweepList_note ps .empty
  refine Ends.bind (LinkUnit.sweep_forest_ends h Declared.note .empty)
    fun (erased, u', declared) ⟨ops, shape, noted, swept⟩ => ?_
  subst shape noted
  rw [hroots] at swept ⊢
  have count := swept.count
  have live := swept.live
  refine ⟨swept.unfolds h, rfl, fun space => ?_, count, ?_⟩
  · rw [hnoted]
    cases space <;> rfl
  · simp only
    omega

theorem LinkUnit.collect_eq {u : LinkUnit} {ps : List Placed} (h : u.Unfolds ps) {c : Collected}
    (hc : u.collect = .ok c) :
    c.unit.Unfolds (ps.filter (·.op.kind.declaration?.isSome)) ∧ c.unit.tag = u.tag ∧
      (∀ space, c.declared.of space = ps.filterMap (Placed.declarationIn space)) ∧
      c.debris + ((ps.filter (·.op.kind.declaration?.isSome)).flatMap Placed.entries).length =
        (ps.flatMap Placed.entries).length ∧
      c.unit.ops.live + c.debris = u.ops.live :=
  (collect_forest_ends h).of_ok hc

theorem LinkUnit.tag_collect {u : LinkUnit} {c : Collected} (h : u.collect = .ok c) :
    c.unit.tag = u.tag := by
  obtain ⟨out, hsweep, h⟩ := bind_eq_ok.mp h
  obtain ⟨swept, -, hsweep⟩ := bind_eq_ok.mp hsweep
  cases hsweep
  cases h
  rfl

theorem LinkUnit.Covered.exists_collect {u : LinkUnit} {ps : List Placed} (covered : u.Covered)
    (h : u.Unfolds ps) : ∃ c, u.collect = .ok c := by
  obtain ⟨c, hc, -⟩ := covered.exists_ok h (collect_forest_ends h)
  exact ⟨c, hc⟩

namespace Placed

variable {renames : Renaming} {unit : Nat} {remap : TyRemap}

/-- What rewriting leaves of a tree: nothing of a stub, and of anything else the tree without the
stubs below it, renamed. -/
def Rewrites (renames : Renaming) (unit : Nat) (remap : TyRemap) (p : Placed) : Prop :=
  ∀ counts, (p.sweep (RewriteCounts.visit renames unit remap) counts).1.map tree =
    if p.tree.root.kind.isStub then none
    else some (p.tree.withoutStubs.mapNodes (Node.substitute (renames.apply unit) remap.apply))

theorem sweepList_rewrites {ps : List Placed} (each : ∀ p ∈ ps, Rewrites renames unit remap p)
    (counts : RewriteCounts) :
    (sweepList (RewriteCounts.visit renames unit remap) ps counts).1.map tree =
      (Tree.dropStubs (ps.map tree)).map
        (Tree.mapNodes (Node.substitute (renames.apply unit) remap.apply)) := by
  induction ps generalizing counts with
  | nil => rfl
  | cons p rest ih =>
    have first := each p List.mem_cons_self counts
    simp only [sweepList, List.map_append, ih fun q hq => each q (List.mem_cons_of_mem p hq),
      List.map_cons, Tree.dropStubs]
    split at first
    · next stub =>
      rw [if_pos stub, Option.map_eq_none_iff.mp first, Option.toList_none]
      rfl
    · next other =>
      obtain ⟨kept, hkept, hfirst⟩ := Option.map_eq_some_iff.mp first
      rw [if_neg other, hkept, Option.toList_some, List.map_cons, hfirst]
      rfl

theorem sweepRegions_rewrites {regions : List (List Placed)}
    (each : ∀ region ∈ regions, ∀ p ∈ region, Rewrites renames unit remap p)
    (counts : RewriteCounts) :
    (sweepRegions (RewriteCounts.visit renames unit remap) regions counts).1.map (·.map tree) =
      regions.map fun region => (Tree.dropStubs (region.map tree)).map
        (Tree.mapNodes (Node.substitute (renames.apply unit) remap.apply)) := by
  induction regions generalizing counts with
  | nil => rfl
  | cons region rest ih =>
    simp only [sweepRegions, List.map_cons, sweepList_rewrites (each region List.mem_cons_self),
      ih fun r hr => each r (List.mem_cons_of_mem region hr)]

theorem rewrites (p : Placed) : Rewrites renames unit remap p := by
  induction p with
  | node id root regions ih =>
    intro counts
    rw [tree_node]
    by_cases hstub : root.kind.isStub = true
    · have erases : RewriteCounts.visit renames unit remap id (node id root regions).op counts =
          (.erase, root, { counts with stubsErased := counts.stubsErased + 1 }) := if_pos hstub
      simp only [sweep, erases, Option.map_none]
      exact (if_pos hstub).symm
    · obtain ⟨counts', descends⟩ : ∃ counts',
          RewriteCounts.visit renames unit remap id (node id root regions).op counts =
            (.descend, root.rewrite renames unit remap, counts') := ⟨_, if_neg hstub⟩
      simp only [sweep, descends, Option.map_some, tree_node, sweepRegions_rewrites ih,
        Tree.withoutStubs_node, Tree.mapNodes_node, Node.rewrite_eq, List.map_map]
      exact (if_neg hstub).symm

end Placed

/-- Rewriting a forest takes out every stub and passes what is left through one substitution. -/
theorem LinkUnit.rewrite_forest_ends {u : LinkUnit} {ps : List Placed} (h : u.Unfolds ps)
    (unit : Nat) (renames : Renaming) (remap : TyRemap) :
    Ends (fun out => out.2.forest = (Tree.dropStubs u.forest).map
        (Tree.mapNodes (Node.substitute (renames.apply unit) remap.apply)) ∧
      (out.2.Covered ↔ u.Covered))
      (u.ops.RunsOut (ps.flatMap Placed.entries).length) (u.rewrite unit renames remap) := by
  refine Ends.bind (sweep_forest_ends h (RewriteCounts.visit renames unit remap) ⟨0, 0, 0⟩)
    fun (erased, u', counts) ⟨ops, shape, _, swept⟩ => ?_
  subst shape
  have live := swept.live
  refine ⟨?_, ?_⟩
  · rw [forest_eq (swept.unfolds h), forest_eq h,
      Placed.sweepList_rewrites fun p _ => p.rewrites]
  · rw [covered_iff (swept.unfolds h), covered_iff h]
    simp only
    omega

theorem LinkUnit.rewrite_eq {u u' : LinkUnit} {ps : List Placed} (h : u.Unfolds ps) {unit : Nat}
    {renames : Renaming} {remap : TyRemap} {counts : RewriteCounts}
    (hr : u.rewrite unit renames remap = .ok (counts, u')) :
    u'.forest = (Tree.dropStubs u.forest).map
        (Tree.mapNodes (Node.substitute (renames.apply unit) remap.apply)) ∧
      (u'.Covered ↔ u.Covered) :=
  (rewrite_forest_ends h unit renames remap).of_ok hr

theorem LinkUnit.Covered.exists_rewrite {u : LinkUnit} {ps : List Placed} (covered : u.Covered)
    (h : u.Unfolds ps) (unit : Nat) (renames : Renaming) (remap : TyRemap) :
    ∃ counts u', u.rewrite unit renames remap = .ok (counts, u') := by
  obtain ⟨⟨counts, u'⟩, hr, -⟩ := covered.exists_ok h (rewrite_forest_ends h unit renames remap)
  exact ⟨counts, u', hr⟩

end Linkage
