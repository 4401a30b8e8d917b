import Linkage.Proofs.Phases
import Linkage.Proofs.Renames
/-!
Resolution, read off the design. Which declarations a link renames shows on the trees at top
level: a name without a stub that is defined more than once is told apart, and nothing else is.
-/
namespace Linkage

def Tree.declares (space : Space) (name : Name) (t : Tree) : Bool :=
  t.root.kind.declaration? = some (space, name)

namespace Tree

variable {space : Space} {name : Name} {t : Tree}

theorem declares_iff :
    t.declares space name = true ↔ t.root.kind.declaration? = some (space, name) := by
  simp [declares]

theorem declared?_of_declares (h : t.declares space name = true) :
    t.root.kind.declared? = some name := by
  rw [OpKind.declared?_eq, declares_iff.mp h, Option.map_some]

theorem declares_withoutStubs (space : Space) (name : Name) (t : Tree) :
    t.withoutStubs.declares space name = t.declares space name := by
  rw [declares, root_withoutStubs, declares]

end Tree

namespace Design

/-- The declarations of a name at top level, each with the position of its unit. -/
def declarers (d : Design) (space : Space) (name : Name) : List (Nat × Tree) :=
  d.units.zipIdx.flatMap fun (u, unit) =>
    (u.forest.filter (Tree.declares space name)).map (unit, ·)

/-- Whether the definitions of a name are to be told apart: several, and no stub. -/
def apart (d : Design) (space : Space) (name : Name) : Bool :=
  (d.declarers space name).all (!·.2.root.kind.isStub) && 1 < (d.declarers space name).length

def renamed (policy : RenamePolicy) (d : Design) (space : Space) (name : Name) : List Nat :=
  if d.apart space name then (policy.choose (d.declarers space name)).map (·.1) else []

theorem renamed_subset {policy : RenamePolicy} {d : Design} (space : Space) (name : Name) :
    d.renamed policy space name ⊆ (d.declarers space name).map (·.1) := by
  unfold renamed
  split
  · exact List.map_subset _ policy.choose_subset
  · exact List.nil_subset _

theorem mem_declarers {d : Design} {space : Space} {name : Name} {unit : Nat} {t : Tree} :
    (unit, t) ∈ d.declarers space name ↔
      ∃ u, d.units[unit]? = some u ∧ t ∈ u.forest ∧ t.declares space name = true := by
  unfold declarers
  rw [List.mem_flatMap]
  constructor
  · rintro ⟨⟨u, unit'⟩, hu, hmem⟩
    obtain ⟨t', ht', heq⟩ := List.mem_map.mp hmem
    obtain ⟨rfl, rfl⟩ := Prod.mk.inj heq
    obtain ⟨hmem, hdeclares⟩ := List.mem_filter.mp ht'
    exact ⟨u, List.mem_zipIdx_iff_getElem?.mp hu, hmem, hdeclares⟩
  · rintro ⟨u, hu, hmem, hdeclares⟩
    exact ⟨(u, unit), List.mem_zipIdx_iff_getElem?.mpr hu,
      List.mem_map.mpr ⟨t, List.mem_filter.mpr ⟨hmem, hdeclares⟩, rfl⟩⟩

end Design

namespace Placed

def declares (space : Space) (name : Name) (p : Placed) : Bool :=
  p.op.kind.declaration? = some (space, name)

theorem declares_tree (space : Space) (name : Name) (p : Placed) :
    p.tree.declares space name = p.declares space name := by
  rw [Tree.declares, declares, root_tree]

theorem filterMap_declarationIn (space : Space) (name : Name) (ps : List Placed) :
    ((ps.filterMap (declarationIn space)).filter (·.name = name)).map (·.op) =
      (ps.filter (declares space name)).map id := by
  induction ps with
  | nil => rfl
  | cons p rest ih =>
    cases h : p.op.kind.declaration? with
    | none =>
      rw [List.filterMap_cons_none (by simp only [declarationIn, h]),
        List.filter_cons_of_neg (by simp [declares, h]), ih]
    | some declaration =>
      obtain ⟨found, name'⟩ := declaration
      by_cases hspace : found = space
      · have noted : declarationIn space p = some ⟨name', p.id⟩ := by
          simp only [declarationIn, h, if_pos hspace]
        rw [List.filterMap_cons_some noted]
        by_cases hname : name' = name
        · rw [List.filter_cons_of_pos (by simp [hname]),
            List.filter_cons_of_pos (by simp [declares, h, hspace, hname]), List.map_cons, ih,
            List.map_cons]
        · rw [List.filter_cons_of_neg (by simp [hname]),
            List.filter_cons_of_neg (by simp [declares, h, hname]), ih]
      · have skipped : declarationIn space p = none := by
          simp only [declarationIn, h, if_neg hspace]
        rw [List.filterMap_cons_none skipped,
          List.filter_cons_of_neg (by simp [declares, h, hspace]), ih]

def declarers (pss : List (List Placed)) (space : Space) (name : Name) : List (Nat × Placed) :=
  pss.zipIdx.flatMap fun (ps, unit) => (ps.filter (declares space name)).map (unit, ·)

theorem mem_declarers {pss : List (List Placed)} {space : Space} {name : Name} {e : Nat × Placed} :
    e ∈ declarers pss space name ↔
      ∃ ps, pss[e.1]? = some ps ∧ e.2 ∈ ps ∧ e.2.op.kind.declaration? = some (space, name) := by
  simp only [declarers, List.mem_flatMap, List.mem_map, List.mem_filter, declares,
    decide_eq_true_eq]
  constructor
  · rintro ⟨⟨ps, unit⟩, hps, p, ⟨hp, hdeclares⟩, rfl⟩
    exact ⟨ps, List.mem_zipIdx_iff_getElem?.mp hps, hp, hdeclares⟩
  · rintro ⟨ps, hps, hp, hdeclares⟩
    exact ⟨(ps, e.1), List.mem_zipIdx_iff_getElem?.mpr hps, e.2, ⟨hp, hdeclares⟩, rfl⟩

theorem map_tree_declarers {d : Design} {pss : List (List Placed)}
    (h : List.Forall₂ LinkUnit.Unfolds d.units pss) (space : Space) (name : Name) :
    (declarers pss space name).map (fun e => (e.1, e.2.tree)) = d.declarers space name := by
  unfold declarers Design.declarers
  rw [List.map_flatMap]
  refine flatMap_zipIdx_congr h.flip (fun ps u unit unfolds => ?_) 0
  dsimp only
  rw [LinkUnit.forest_eq unfolds, List.filter_map, List.map_map, List.map_map]
  exact congrArg _ (List.filter_congr fun p _ => (declares_tree space name p).symm)

theorem map_site_declarers {pss : List (List Placed)} {collected : List Collected}
    (h : List.Forall₂ Collected.Of pss collected) (space : Space) (name : Name) :
    (declarers pss space name).map (fun e => (⟨e.1, e.2.id⟩ : Site)) =
      Catalogue.sites (collected.map (·.declared)) space name := by
  unfold declarers Catalogue.sites
  have entered : List.Forall₂ (fun ps declared => declared.of space =
      ps.filterMap (declarationIn space)) pss (collected.map (·.declared)) :=
    List.forall₂_map_right_iff.mpr (h.imp fun _ _ of => of.declared space)
  rw [List.map_flatMap]
  refine flatMap_zipIdx_congr entered (fun ps declared unit same => ?_) 0
  have sites := congrArg (List.map fun op => (⟨unit, op⟩ : Site))
    (filterMap_declarationIn space name ps)
  rw [List.map_map, List.map_map] at sites
  dsimp only
  rw [List.map_map, same]
  exact sites.symm

theorem op_declarers {pss : List (List Placed)} {collected : List Collected}
    (h : List.Forall₂ Collected.Of pss collected) (types : TyStore) (lexicon : Lexicon)
    {space : Space} {name : Name} {e : Nat × Placed} (he : e ∈ declarers pss space name) :
    Court.op ⟨collected.map (·.unit), types, lexicon⟩ ⟨e.1, e.2.id⟩ = .ok e.2.op := by
  obtain ⟨ps, hps, hp, hdeclares⟩ := mem_declarers.mp he
  obtain ⟨c, hc, of⟩ := forall₂_getElem? h hps
  have kept : e.2 ∈ ps.filter (·.op.kind.declaration?.isSome) :=
    List.mem_filter.mpr ⟨hp, by simp [hdeclares]⟩
  have held := of.unfolds.holds _ (List.mem_flatMap.mpr ⟨e.2, kept, e.2.mem_entries⟩)
  simp only [Court.op, List.getElem?_map, hc, Option.map_some, held]

end Placed

namespace Design

variable {d : Design} {pss : List (List Placed)} {collected : List Collected}

/-- What a court hears on a name, sitting over the collected units. -/
theorem heard_collected (hcs : List.Forall₂ Collected.Of pss collected) (types : TyStore)
    (lexicon : Lexicon) (space : Space) (name : Name) :
    List.Forall₂ (fun site op =>
        Court.op ⟨collected.map (·.unit), types, lexicon⟩ site = .ok op)
      (Catalogue.sites (collected.map (·.declared)) space name)
      ((Placed.declarers pss space name).map (·.2.op)) := by
  rw [← Placed.map_site_declarers hcs, List.forall₂_map_left_iff, List.forall₂_map_right_iff,
    List.forall₂_same]
  exact fun e he => Placed.op_declarers hcs types lexicon he

theorem kinds_declarers (pss : List (List Placed)) (space : Space) (name : Name) :
    ∀ op ∈ (Placed.declarers pss space name).map (·.2.op),
      op.kind.declaration?.map (·.1) = some space := by
  intro op hop
  obtain ⟨e, he, rfl⟩ := List.mem_map.mp hop
  obtain ⟨-, -, -, hdeclares⟩ := Placed.mem_declarers.mp he
  rw [hdeclares]
  rfl

theorem nodes_declarers (hpss : List.Forall₂ LinkUnit.Unfolds d.units pss) (space : Space)
    (name : Name) : ((Placed.declarers pss space name).map (·.2.op)).map (·.toNode) =
      (d.declarers space name).map (·.2.root) := by
  rw [← Placed.map_tree_declarers hpss, List.map_map, List.map_map]
  exact List.map_congr_left fun e _ => (Placed.root_tree e.2).symm

theorem kinds_heard (hpss : List.Forall₂ LinkUnit.Unfolds d.units pss) (space : Space)
    (name : Name) : ((Placed.declarers pss space name).map (·.2.op)).map (·.kind) =
      (d.declarers space name).map (·.2.root.kind) := by
  have kinds := congrArg (List.map Node.kind) (nodes_declarers hpss space name)
  simp only [List.map_map, Function.comp_def] at kinds ⊢
  exact kinds

theorem sites_eq_nil_iff (hpss : List.Forall₂ LinkUnit.Unfolds d.units pss)
    (hcs : List.Forall₂ Collected.Of pss collected) {space : Space} {name : Name} :
    Catalogue.sites (collected.map (·.declared)) space name = [] ↔
      d.declarers space name = [] := by
  rw [← Placed.map_site_declarers hcs, ← Placed.map_tree_declarers hpss, List.map_eq_nil_iff,
    List.map_eq_nil_iff]

theorem known_tags {stem : String} {lexicon : Lexicon}
    (tags : ∀ u ∈ d.units, ∀ tag ∈ u.tag, tag.index < lexicon.size)
    (h : (assignTags stem 0 lexicon d.units).1.mapM LinkUnit.collect = .ok collected) :
    ∀ c ∈ collected, ∀ tag ∈ c.unit.tag,
      tag.index < (assignTags stem 0 lexicon d.units).2.size := by
  intro c hc tag htag
  obtain ⟨u, hu, hcollect⟩ := forall₂_exists_left (mapM_eq_ok.mp h) hc
  rw [LinkUnit.tag_collect hcollect] at htag
  exact assignTags_known tags stem 0 u hu tag htag

theorem tagged_collected (hcs : List.Forall₂ Collected.Of pss collected) {lexicon : Lexicon}
    (tags : ∀ c ∈ collected, ∀ tag ∈ c.unit.tag, tag.index < lexicon.size) (space : Space)
    (name : Name) : ∀ site ∈ Catalogue.sites (collected.map (·.declared)) space name,
      ∃ tag, tagText (collected.map (·.unit)) lexicon site.unit = .ok tag := by
  intro site hsite
  rw [← Placed.map_site_declarers hcs] at hsite
  obtain ⟨e, he, rfl⟩ := List.mem_map.mp hsite
  obtain ⟨ps, hps, -⟩ := Placed.mem_declarers.mp he
  obtain ⟨c, hc, of⟩ := forall₂_getElem? hcs hps
  obtain ⟨tag, htag⟩ := of.tagged
  obtain ⟨text, htext⟩ := Lexicon.exists_text (tags c (List.mem_of_getElem? hc) tag htag)
  refine ⟨text, ?_⟩
  simp only [tagText, List.getElem?_map, hc, Option.map_some, htag]
  exact Linking.ofChecked_eq_ok.mpr htext

end Design

theorem Settled.verdict_iff {kinds : List OpKind} {verdict : Bool} (h : Settled kinds verdict)
    (some_kind : kinds ≠ []) :
    verdict = true ↔ kinds.all (!·.isStub) = true ∧ 1 < kinds.length := by
  cases h with
  | apart defined several =>
    have positive := List.length_pos_iff.mpr some_kind
    refine ⟨fun _ => ⟨?_, by omega⟩, fun _ => rfl⟩
    exact List.all_eq_true.mpr fun kind hkind => by simp [defined kind hkind]
  | together definition only agrees =>
    constructor
    · intro h
      cases h
    rintro ⟨all, several⟩
    have whole : kinds.filter (!·.isStub) = kinds :=
      List.filter_eq_self.mpr (List.all_eq_true.mp all)
    rw [← whole, only] at several
    exact absurd several (Nat.lt_irrefl 1)

theorem Settled.exists_definition {ds : List (Nat × Tree)}
    (h : Settled (ds.map (·.2.root.kind)) false) :
    ∃ definition ∈ ds, ds.filter (!·.2.root.kind.isStub) = [definition] ∧
      ∀ stub ∈ ds, stub.2.root.kind.isStub = true →
        definition.2.root.kind.Agrees stub.2.root.kind := by
  cases h with
  | together kind only agrees =>
    rw [List.filter_map] at only
    obtain ⟨definition, hdefinition, rfl⟩ := List.map_eq_singleton_iff.mp only
    have single : ds.filter (!·.2.root.kind.isStub) = [definition] := hdefinition
    have hmem : definition ∈ ds.filter (!·.2.root.kind.isStub) := by
      rw [single]
      exact List.mem_cons_self
    exact ⟨definition, (List.mem_filter.mp hmem).1, single, fun stub hstub =>
      agrees _ (List.mem_map_of_mem hstub)⟩

theorem Design.apart_eq_of_settled (d : Design) {space : Space} {name : Name} {verdict : Bool}
    (h : Settled ((d.declarers space name).map (·.2.root.kind)) verdict)
    (declared : d.declarers space name ≠ []) : d.apart space name = verdict := by
  have which := h.verdict_iff (by simpa using declared)
  rw [Bool.eq_iff_iff, which, apart]
  simp

theorem eq_of_nodup_filterMap {α β : Type} {f : α → Option β} {xs : List α}
    (nodup : (xs.filterMap f).Nodup) {a b : α} (ha : a ∈ xs) (hb : b ∈ xs) {y : β}
    (hay : f a = some y) (hby : f b = some y) : a = b := by
  by_contra differ
  refine List.Pairwise.forall_of_forall_of_flip
    (R := fun a b => a ≠ b → ∀ y, f a = some y → f b ≠ some y) ?_ ?_ ?_ ha hb differ y hay hby
  · intro x _ hne
    exact absurd rfl hne
  · refine (List.pairwise_filterMap.mp nodup).imp fun apart _ y hy hz => ?_
    exact apart y hy y hz rfl
  · refine (List.pairwise_filterMap.mp nodup).imp fun apart _ y hy hz => ?_
    exact apart y hz y hy rfl

theorem length_filter_le_one {α β : Type} {f : α → Option β} {p : α → Bool} {y : β} {xs : List α}
    (nodup : (xs.filterMap f).Nodup) (same : ∀ x, p x = true → f x = some y) :
    (xs.filter p).length ≤ 1 := by
  have images : (xs.filter p).filterMap f = (xs.filter p).map fun _ => y :=
    List.filterMap_eq_map_iff_forall_eq_some.mpr fun x hx => same x (List.mem_filter.mp hx).2
  have distinct := nodup.sublist (List.Sublist.filterMap f (List.filter_sublist (p := p)))
  rw [images, List.map_const'] at distinct
  exact List.nodup_replicate.mp distinct

theorem filter_fst_eq {α : Type} {xs : List (Nat × α)} (nodup : (xs.map (·.1)).Nodup) {i : Nat}
    {a : α} (h : (i, a) ∈ xs) : xs.filter (·.1 = i) = [(i, a)] := by
  induction xs with
  | nil => cases h
  | cons x rest ih =>
    rw [List.map_cons, List.nodup_cons] at nodup
    rcases List.mem_cons.mp h with rfl | h
    · have others : rest.filter (·.1 = i) = [] := by
        refine List.filter_eq_nil_iff.mpr fun x hx => ?_
        have differ : x.1 ≠ i := fun same => nodup.1 (List.mem_map.mpr ⟨x, hx, same⟩)
        simpa using differ
      rw [List.filter_cons_of_pos (by simp), others]
    · have differ : x.1 ≠ i := fun same => nodup.1 (same ▸ List.mem_map.mpr ⟨(i, a), h, rfl⟩)
      rw [List.filter_cons_of_neg (by simpa using differ), ih nodup.2 h]

theorem nodup_positions {α β : Type} {f : α → List β} {xs : List α}
    (once : ∀ x ∈ xs, (f x).length ≤ 1) (start : Nat) :
    ((xs.zipIdx start).flatMap fun e => (f e.1).map fun _ => e.2).Nodup := by
  induction xs generalizing start with
  | nil => exact List.nodup_nil
  | cons x rest ih =>
    rw [List.zipIdx_cons, List.flatMap_cons]
    refine List.Nodup.append ?_ (ih (fun y hy => once y (List.mem_cons_of_mem x hy)) _) ?_
    · match f x, once x List.mem_cons_self with
      | [], _ => exact List.nodup_nil
      | [_], _ => exact List.nodup_singleton _
    · intro i hi hi'
      obtain ⟨_, -, rfl⟩ := List.mem_map.mp hi
      obtain ⟨e, he, hmem⟩ := List.mem_flatMap.mp hi'
      obtain ⟨_, -, heq⟩ := List.mem_map.mp hmem
      have later := List.le_snd_of_mem_zipIdx he
      simp only at heq
      omega

namespace Design

variable {d : Design} {space space' : Space} {name : Name} {unit : Nat} {t : Tree}

theorem filter_definitions (d : Design) (space : Space) (name : Name) :
    d.definitions.filter (·.2.declares space name) =
      ((d.declarers space name).filter (!·.2.root.kind.isStub)).map
        fun e => (e.1, e.2.withoutStubs) := by
  unfold definitions declarers
  rw [List.filter_flatMap, List.filter_flatMap, List.map_flatMap]
  refine List.flatMap_congr fun e _ => ?_
  obtain ⟨u, unit⟩ := e
  rw [List.filter_map, List.filter_map, List.map_map, List.filter_filter, List.filter_filter]
  have same : u.forest.filter (fun t =>
      ((fun e : Nat × Tree => e.2.declares space name) ∘ fun t => (unit, t.withoutStubs)) t &&
        t.root.kind.isDefinition) =
      u.forest.filter (fun t => ((fun e : Nat × Tree => !e.2.root.kind.isStub) ∘ (unit, ·)) t &&
        t.declares space name) := by
    refine List.filter_congr fun t _ => ?_
    simp only [Function.comp_apply, Tree.declares, Tree.root_withoutStubs, OpKind.isDefinition_eq]
    by_cases h : t.root.kind.declaration? = some (space, name)
    · simp [h]
    · simp [h]
  rw [same]
  rfl

theorem UniqueNames.eq (h : d.UniqueNames) {u : LinkUnit} (hu : u ∈ d.units) {t t' : Tree}
    (ht : t ∈ u.forest) (ht' : t' ∈ u.forest) (hname : t.declares space name = true)
    (hname' : t'.declares space' name = true) : t = t' := by
  have declared := Tree.declared?_of_declares hname
  have declared' := Tree.declared?_of_declares hname'
  exact eq_of_nodup_filterMap (h u hu) ht ht' declared declared'

theorem UniqueNames.space_eq (h : d.UniqueNames) (hname : unit ∈ (d.declarers space name).map (·.1))
    (hname' : unit ∈ (d.declarers space' name).map (·.1)) : space = space' := by
  obtain ⟨⟨_, t⟩, hmem, rfl⟩ := List.mem_map.mp hname
  obtain ⟨⟨unit', t'⟩, hmem', heq⟩ := List.mem_map.mp hname'
  obtain rfl : unit' = _ := heq
  obtain ⟨u, hu, ht, hdeclares⟩ := mem_declarers.mp hmem
  obtain ⟨u', hu', ht', hdeclares'⟩ := mem_declarers.mp hmem'
  obtain rfl : u = u' := Option.some.inj (hu.symm.trans hu')
  obtain rfl := h.eq (List.mem_of_getElem? hu) ht ht' hdeclares hdeclares'
  have same := (Tree.declares_iff.mp hdeclares).symm.trans (Tree.declares_iff.mp hdeclares')
  cases same
  rfl

theorem UniqueNames.length_declares_le (h : d.UniqueNames) {u : LinkUnit} (hu : u ∈ d.units)
    (space : Space) (name : Name) : (u.forest.filter (Tree.declares space name)).length ≤ 1 :=
  length_filter_le_one (h u hu) fun _ declares => Tree.declared?_of_declares declares

theorem UniqueNames.nodup (h : d.UniqueNames) (space : Space) (name : Name) :
    ((d.declarers space name).map (·.1)).Nodup := by
  have once : ∀ u ∈ d.units, (u.forest.filter (Tree.declares space name)).length ≤ 1 :=
    fun u hu => h.length_declares_le hu space name
  have positions := nodup_positions once 0
  unfold declarers
  simpa [List.map_flatMap, Function.comp_def] using positions

end Design

namespace Phases

variable {options : LinkOptions} {d : Design} {lexicon : Lexicon}

theorem fresh (p : Phases options d lexicon) (forest : ∀ u ∈ d.units, u.IsForest) {unit : Nat}
    {name new : Name} (h : p.naming.renames.get? unit name = some new) {u : LinkUnit}
    (hu : u ∈ d.units) {t : Tree} (ht : t ∈ u.forest) :
    t.root.kind.declared? ≠ some new := by
  intro declared
  obtain ⟨-, ⟨pool, hpool, sound⟩, -⟩ := Court.nameAll_ok p.names
  obtain ⟨text, htext, -, free⟩ := sound.given unit name new h
  -- its text would be taken from the start
  obtain ⟨pss, hpss, hcs⟩ := p.exists_unfolding forest
  obtain ⟨i, hi⟩ := List.getElem?_of_mem hu
  obtain ⟨ps, hps, unfolds⟩ := forall₂_getElem? hpss hi
  obtain ⟨c, hc, of⟩ := forall₂_getElem? hcs hps
  rw [LinkUnit.forest_eq unfolds] at ht
  obtain ⟨q, hq, rfl⟩ := List.mem_map.mp ht
  rw [Placed.root_tree, OpKind.declared?_eq, Option.map_eq_some_iff] at declared
  obtain ⟨⟨space, new'⟩, hdeclaration, rfl⟩ := declared
  have entered : (⟨new', q.id⟩ : Declaration) ∈ c.declared.of space := by
    rw [of.declared]
    refine List.mem_filterMap.mpr ⟨q, hq, ?_⟩
    simp only [Placed.declarationIn, hdeclaration, if_true]
  have rolled : new' ∈ (p.collected.map (·.declared)).flatMap Catalogue.roll :=
    List.mem_flatMap.mpr ⟨c.declared, List.mem_map_of_mem (List.mem_of_getElem? hc),
      Catalogue.mem_roll.mpr ⟨space, _, entered, rfl⟩⟩
  obtain ⟨old, hold⟩ := NamePool.known_of_takeAll hpool new' rolled
  obtain rfl := Except.ok.inj ((sound.lexicon.text_eq_ok hold).symm.trans htext)
  have used := (NamePool.contains_takeAll hpool old).mpr (.inr ⟨new', rolled, hold⟩)
  rw [used] at free
  cases free

theorem apart (p : Phases options d lexicon) {unit unit' : Nat} {name name' new : Name}
    (h : p.naming.renames.get? unit name = some new)
    (h' : p.naming.renames.get? unit' name' = some new) : unit = unit' ∧ name = name' := by
  obtain ⟨-, ⟨pool, -, sound⟩, -⟩ := Court.nameAll_ok p.names
  exact sound.apart unit name unit' name' new h h'

theorem extends_naming (p : Phases options d lexicon) : lexicon.Extends p.naming.lexicon := by
  obtain ⟨-, ⟨pool, -, sound⟩, -⟩ := Court.nameAll_ok p.names
  exact (assignTags_lexicon options.tagStem d.units 0 lexicon).trans sound.lexicon

theorem known_apply (p : Phases options d lexicon) (unit : Nat) {name : Name}
    (known : name.index < p.naming.lexicon.size) :
    (p.naming.renames.apply unit name).index < p.naming.lexicon.size := by
  obtain ⟨-, ⟨pool, -, sound⟩, -⟩ := Court.nameAll_ok p.names
  unfold Renaming.apply
  cases hget : p.naming.renames.get? unit name with
  | none => exact known
  | some new => exact sound.known hget

theorem settled_of_judges (p : Phases options d lexicon) (forest : ∀ u ∈ d.units, u.IsForest)
    {space : Space} {name : Name} {verdict : Bool}
    (h : Court.Judges ⟨p.collected.map (·.unit), d.types,
      (assignTags options.tagStem 0 lexicon d.units).2⟩ space name
      (Catalogue.sites (p.collected.map (·.declared)) space name) verdict) :
    Settled ((d.declarers space name).map (·.2.root.kind)) verdict := by
  obtain ⟨pss, hpss, hcs⟩ := p.exists_unfolding forest
  obtain ⟨ops, hops, settled⟩ := h.settled
  have kinds : ops.map (·.kind) = (d.declarers space name).map (·.2.root.kind) := by
    rw [← Design.kinds_heard hpss]
    have heard := Design.heard_collected hcs d.types
      (assignTags options.tagStem 0 lexicon d.units).2 space name
    refine map_eq_map_of_forall₂ hops heard fun site op op' hop hop' => ?_
    rw [Except.ok.inj (hop.symm.trans hop')]
  exact kinds ▸ settled

/-- A name that was not turned down is told apart, or has one definition, with which every stub
agrees. -/
theorem settled (p : Phases options d lexicon) (forest : ∀ u ∈ d.units, u.IsForest)
    {space : Space} {name : Name} (declared : d.declarers space name ≠ []) :
    ∃ verdict, Settled ((d.declarers space name).map (·.2.root.kind)) verdict := by
  obtain ⟨pss, hpss, hcs⟩ := p.exists_unfolding forest
  obtain ⟨judged, -, -⟩ := Court.nameAll_ok p.names
  obtain ⟨verdict, hverdict⟩ := judged space name
    (mt (Design.sites_eq_nil_iff hpss hcs).mp declared)
  exact ⟨verdict, p.settled_of_judges forest hverdict⟩

theorem exists_definition_of_stub (p : Phases options d lexicon)
    (forest : ∀ u ∈ d.units, u.IsForest) {space : Space} {name : Name} {stub : Nat × Tree}
    (hmem : stub ∈ d.declarers space name) (hstub : stub.2.root.kind.isStub = true) :
    ∃ definition ∈ d.declarers space name,
      (d.declarers space name).filter (!·.2.root.kind.isStub) = [definition] ∧
        definition.2.root.kind.Agrees stub.2.root.kind := by
  obtain ⟨verdict, settled⟩ := p.settled forest (List.ne_nil_of_mem hmem)
  cases verdict with
  | true =>
    obtain ⟨defined, -⟩ := settled
    have no_stub := defined _ (List.mem_map_of_mem hmem)
    rw [hstub] at no_stub
    cases no_stub
  | false =>
    obtain ⟨definition, hdefinition, only, agrees⟩ := settled.exists_definition
    exact ⟨definition, hdefinition, only, agrees stub hmem hstub⟩

/-- What is renamed, told on the design: of the names to be told apart, the declarations that the
policy takes. -/
theorem isSome_get?_iff (p : Phases options d lexicon) (forest : ∀ u ∈ d.units, u.IsForest)
    (unit : Nat) (name : Name) :
    (p.naming.renames.get? unit name).isSome = true ↔
      ∃ space, unit ∈ d.renamed options.policy space name := by
  obtain ⟨pss, hpss, hcs⟩ := p.exists_unfolding forest
  obtain ⟨judged, -, renamed⟩ := Court.nameAll_ok p.names
  rw [renamed]
  refine exists_congr fun space => ?_
  have trees := Placed.map_tree_declarers hpss space name
  have sites := Placed.map_site_declarers hcs space name
  have units : (∃ site ∈ options.policy.choose
      (Catalogue.sites (p.collected.map (·.declared)) space name), site.unit = unit) ↔
      unit ∈ (options.policy.choose (d.declarers space name)).map (·.1) := by
    rw [← sites, ← trees, RenamePolicy.choose_map, RenamePolicy.choose_map, List.map_map,
      List.mem_map]
    simp
  rw [units, Design.renamed]
  by_cases declared : d.declarers space name = []
  · have nothing : options.policy.choose (d.declarers space name) = [] := by
      rw [declared]
      cases options.policy <;> rfl
    simp [nothing]
  · obtain ⟨verdict, hverdict⟩ := judged space name
      (mt (Design.sites_eq_nil_iff hpss hcs).mp declared)
    have told := d.apart_eq_of_settled (p.settled_of_judges forest hverdict) declared
    cases verdict with
    | true => simp [hverdict, told]
    | false =>
      have otherwise : ¬ Court.Judges ⟨p.collected.map (·.unit), d.types,
          (assignTags options.tagStem 0 lexicon d.units).2⟩ space name
          (Catalogue.sites (p.collected.map (·.declared)) space name) true :=
        fun h => by cases h.unique hverdict
      simp [otherwise, told]

end Phases

end Linkage
