import Linkage.Proofs.Judgements
/-!
The order in which the names of a design are judged: those of the modules first, then those of the
classes, each in the order of first appearance. The verdict on a name is the one that the design
gives as it stands, whatever its units lose and whichever tags they get before they are judged.
-/
namespace Linkage

def OpKind.declaredIn (space : Space) (kind : OpKind) : Option Name :=
  match kind.declaration? with
  | some (found, name) => if found = space then some name else none
  | none => none

theorem OpKind.declaredIn_eq_some {space : Space} {kind : OpKind} {name : Name} :
    kind.declaredIn space = some name ↔ kind.declaration? = some (space, name) := by
  unfold declaredIn
  cases kind.declaration? with
  | none => simp
  | some declaration => simp [Prod.ext_iff]

namespace Court

variable {c : Court} {declared : List Declared} {policy : RenamePolicy}

/-- Naming ends with the first name on the docket that is not judged. -/
theorem nameAll_eq_error {before after : List (Space × Name)} {e : Space × Name} {halt : Halt}
    (split : docket (Catalogue.names declared) = before ++ e :: after)
    (named : ∀ name ∈ declared.flatMap Catalogue.roll, name.index < c.lexicon.size)
    (tagged : ∀ space name, ∀ site ∈ Catalogue.sites declared space name,
      ∃ tag, tagText c.units c.lexicon site.unit = .ok tag)
    (passes : ∀ words, c.lexicon.Extends words → ∀ e ∈ before, ∃ verdict,
      (c.knowing words).judge e.1 e.2 (Catalogue.sites declared e.1 e.2) = .ok verdict)
    (stops : ∀ words, c.lexicon.Extends words →
      (c.knowing words).judge e.1 e.2 (Catalogue.sites declared e.1 e.2) = .error halt) :
    c.nameAll policy declared = .error halt := by
  obtain ⟨pool, hpool⟩ := NamePool.empty.exists_takeAll named
  rw [nameAll_eq, hpool, split]
  refine foldlM_eq_error (I := fun naming : Naming => c.lexicon.Extends naming.lexicon)
    (fun naming words e' he' => ?_) (fun naming words => ?_) (.refl c.lexicon)
  · obtain ⟨verdict, hverdict⟩ := passes naming.lexicon words e' he'
    have listed : e'.2 ∈ Catalogue.names declared e'.1 :=
      mem_docket.mp (split ▸ List.mem_append_left _ he')
    obtain ⟨text, htext⟩ :=
      Lexicon.exists_text (named e'.2 (Catalogue.mem_roll_of_mem_names listed))
    refine (nameOne_ends words htext (ends_of_ok hverdict trivial)
      fun later more site hsite => ?_).exists_ok
    obtain ⟨tag, htag⟩ := tagged e'.1 e'.2 site hsite
    exact ends_of_ok (tagText_of_extends more htag) trivial
  · exact nameOne_of_error (stops naming.lexicon words)

end Court

namespace Placed

theorem declarationIn_eq (space : Space) (p : Placed) :
    declarationIn space p = (p.op.kind.declaredIn space).map fun name => ⟨name, p.id⟩ := by
  unfold declarationIn OpKind.declaredIn
  cases p.op.kind.declaration? with
  | none => rfl
  | some declaration =>
    obtain ⟨found, name⟩ := declaration
    dsimp only
    split <;> rfl

end Placed

theorem Collected.Of.names_eq {u : LinkUnit} {ps : List Placed} {c : Collected}
    (h : Collected.Of ps c) (hu : u.Unfolds ps) (space : Space) :
    (c.declared.of space).map (·.name) =
      u.forest.filterMap (·.root.kind.declaredIn space) := by
  rw [h.declared, LinkUnit.forest_eq hu, List.filterMap_map, List.map_filterMap]
  refine List.filterMap_congr fun p _ => ?_
  rw [Placed.declarationIn_eq, Function.comp_apply, Placed.root_tree, Option.map_map]
  cases p.op.kind.declaredIn space <;> rfl

namespace Design

def roll (d : Design) (space : Space) : List Name :=
  distinct (d.units.flatMap fun u => u.forest.filterMap (·.root.kind.declaredIn space))

def sites (d : Design) (space : Space) (name : Name) : List Site :=
  d.units.zipIdx.flatMap fun (u, unit) =>
    (u.body.filter fun id => (u.ops.get? id.index).any fun op =>
      op.kind.declaration? = some (space, name)).map (⟨unit, ·⟩)

/-- The verdict on a name, judged on the design as it stands. -/
def verdict (d : Design) (lexicon : Lexicon) (e : Space × Name) : Linking Bool :=
  Court.judge ⟨d.units, d.types, lexicon⟩ e.1 e.2 (d.sites e.1 e.2)

theorem Spoken.of_denotes {d : Design} {lexicon : Lexicon} (h : d.Spoken lexicon) {id : TyId}
    {t : TyTree} (denotes : d.types.Denotes id t) :
    ∀ name ∈ t.classes, name.index < lexicon.size := denotes.classes_known h.classes

section

variable {d : Design} {lexicon : Lexicon} {pss : List (List Placed)} {collected : List Collected}
  {space : Space} {name : Name}

theorem names_collected (hpss : List.Forall₂ LinkUnit.Unfolds d.units pss)
    (hcs : List.Forall₂ Collected.Of pss collected) :
    Catalogue.names (collected.map (·.declared)) = d.roll := by
  funext space
  refine congrArg distinct (flatMap_eq_of_getElem? ?_ ?_)
  · rw [List.length_map, ← hcs.length_eq, hpss.length_eq]
  · intro i declared u hdeclared hu
    obtain ⟨ps, hps, unfolds⟩ := forall₂_getElem? hpss hu
    obtain ⟨c, hc, of⟩ := forall₂_getElem? hcs hps
    rw [List.getElem?_map, hc] at hdeclared
    cases hdeclared
    exact of.names_eq unfolds space

theorem sites_eq (hpss : List.Forall₂ LinkUnit.Unfolds d.units pss) :
    d.sites space name =
      (Placed.declarers pss space name).map fun e => (⟨e.1, e.2.id⟩ : Site) := by
  unfold sites Placed.declarers
  rw [List.map_flatMap]
  refine flatMap_zipIdx_congr hpss (fun u ps unit unfolds => ?_) 0
  dsimp only
  rw [← unfolds.body, List.filter_map, List.map_map, List.map_map]
  refine congrArg _ (List.filter_congr fun p hp => ?_)
  simp [unfolds.held hp, Placed.declares]

theorem op_units (hpss : List.Forall₂ LinkUnit.Unfolds d.units pss) (types : TyStore)
    (lexicon : Lexicon) {e : Nat × Placed} (he : e ∈ Placed.declarers pss space name) :
    Court.op ⟨d.units, types, lexicon⟩ ⟨e.1, e.2.id⟩ = .ok e.2.op := by
  obtain ⟨ps, hps, hp, -⟩ := Placed.mem_declarers.mp he
  obtain ⟨u, hu, unfolds⟩ := forall₂_getElem? hpss.flip hps
  simp only [Court.op, hu, unfolds.held hp]

theorem exists_tree_of_declarer (hpss : List.Forall₂ LinkUnit.Unfolds d.units pss) {op : Op}
    (hop : op ∈ (Placed.declarers pss space name).map (·.2.op)) :
    ∃ u ∈ d.units, ∃ t ∈ u.forest, t.root = op.toNode ∧ t.declares space name = true := by
  have heard : op.toNode ∈ (d.declarers space name).map (·.2.root) := by
    rw [← nodes_declarers hpss]
    exact List.mem_map_of_mem hop
  obtain ⟨⟨unit, t⟩, ht, heq⟩ := List.mem_map.mp heard
  obtain ⟨u, hu, hmem, declares⟩ := mem_declarers.mp ht
  exact ⟨u, List.mem_of_getElem? hu, t, hmem, heq, declares⟩

end

/-- With these words the names and types of all declarations can be read, or what cannot be read is
excused. -/
structure Reads (d : Design) (words : Lexicon) (excused : Fault → Prop) : Prop where
  names : ∀ u ∈ d.units, ∀ t ∈ u.forest,
    ∀ name ∈ t.root.kind.declared?.toList ++ t.root.kind.members,
    Ends (fun _ => True) excused (words.text name)
  tags : ∀ u ∈ d.units, ∀ tag ∈ u.tag, Ends (fun _ => True) excused (words.text tag)
  types : ∀ u ∈ d.units, ∀ t ∈ u.forest, ∀ id ∈ t.root.kind.types,
    Ends (fun _ => True) excused (d.types.display words id)

section

variable {d : Design} {lexicon : Lexicon} {pss : List (List Placed)} {collected : List Collected}
  {space : Space} {name : Name} {excused : Fault → Prop}

theorem WellFormed.reads (wf : d.WellFormed lexicon) (spoken : d.Spoken lexicon) {words : Lexicon}
    (more : lexicon.size ≤ words.size) : d.Reads words excused := by
  have known : ∀ name : Name, name.index < lexicon.size →
      Ends (fun _ => True) excused (words.text name) :=
    fun name inside => Lexicon.text_answers (Nat.lt_of_lt_of_le inside more)
  refine ⟨fun u hu t ht name hname => known name ?_,
    fun u hu tag htag => known tag (spoken.tags u hu tag htag), fun u hu t ht id hid => ?_⟩
  · rcases List.mem_append.mp hname with hname | hname
    · exact wf.named u hu t ht name (Option.mem_toList.mp hname)
    · exact spoken.members u hu t ht name hname
  · have inside := wf.typed u hu t ht t.root t.root_mem_nodes id (List.mem_append_right _ hid)
    obtain ⟨tree, htree⟩ := TyStore.exists_denotes wf.closed wf.acyclic inside
    obtain ⟨text, htext⟩ := TyTree.exists_text fun name hname =>
      Nat.lt_of_lt_of_le (spoken.of_denotes htree name hname) more
    exact ends_of_ok ((htree.display_eq words).trans htext) trivial

theorem Reads.judge_answers {words : Lexicon} (reads : d.Reads words excused)
    (hpss : List.Forall₂ LinkUnit.Unfolds d.units pss)
    (hcs : List.Forall₂ Collected.Of pss collected) (listed : name ∈ d.roll space) :
    Linking.Answers (fun r => ∃ text, words.text name = .ok text ∧ r.Concerns text space) excused
      (Court.judge ⟨collected.map (·.unit), d.types, words⟩ space name
        (Catalogue.sites (collected.map (·.declared)) space name)) := by
  refine Court.judge_answers (heard_collected hcs d.types words space name)
    (kinds_declarers pss space name) ?_ (fun op hop member hmember => ?_) fun op hop id hid => ?_
  · rw [roll, mem_distinct] at listed
    obtain ⟨u, hu, hname⟩ := List.mem_flatMap.mp listed
    obtain ⟨t, ht, hdeclared⟩ := List.mem_filterMap.mp hname
    refine reads.names u hu t ht name (List.mem_append_left _ ?_)
    rw [OpKind.declared?_eq, OpKind.declaredIn_eq_some.mp hdeclared]
    exact List.mem_singleton_self name
  · obtain ⟨u, hu, t, ht, heq, -⟩ := exists_tree_of_declarer hpss hop
    exact reads.names u hu t ht member (List.mem_append_right _ (heq ▸ hmember))
  · obtain ⟨u, hu, t, ht, heq, -⟩ := exists_tree_of_declarer hpss hop
    exact reads.types u hu t ht id (heq ▸ hid)

theorem naming_ends (forest : ∀ u ∈ d.units, u.IsForest) {options : LinkOptions}
    (reads : ∀ words, (assignTags options.tagStem 0 lexicon d.units).2.Extends words →
      d.Reads words excused)
    (hcollects : (assignTags options.tagStem 0 lexicon d.units).1.mapM LinkUnit.collect =
      .ok collected) :
    Ends (fun _ => True) (Halt.Excused (fun r => ∃ space text, r.Concerns text space) excused)
      (d.naming options lexicon) := by
  obtain ⟨pss, hpss, hcs, -⟩ := unfolds_of_collects forest hcollects
  have tagged : ∀ words, (assignTags options.tagStem 0 lexicon d.units).2.Extends words →
      ∀ c ∈ collected, ∀ tag ∈ c.unit.tag, Ends (fun _ => True) excused (words.text tag) := by
    intro words more c hc tag htag
    obtain ⟨u', hu', hcollect⟩ := forall₂_exists_left (mapM_eq_ok.mp hcollects) hc
    rw [LinkUnit.tag_collect hcollect] at htag
    rcases assignTags_given _ _ _ _ u' hu' tag htag with ⟨u, hu, given⟩ | inside
    · exact (reads words more).tags u hu tag given
    · exact Lexicon.text_answers (Nat.lt_of_lt_of_le inside more.size)
  unfold naming
  simp only [hcollects]
  refine (Court.nameAll_ends (fun name hname => ?_) (fun words more space name hname => ?_)
    fun words more space name site hsite => ?_).imp (fun _ _ => trivial) fun _ h => h
  · exact named_collected (fun u hu t ht name hname => (reads _ (.refl _)).names u hu t ht name
      (List.mem_append_left _ (Option.mem_toList.mpr hname))) hpss hcs name hname
  · rw [names_collected hpss hcs] at hname
    exact ((reads words more).judge_answers hpss hcs hname).imp
      fun r ⟨text, _, concerns⟩ => ⟨space, text, concerns⟩
  · rw [← Placed.map_site_declarers hcs] at hsite
    obtain ⟨e, he, rfl⟩ := List.mem_map.mp hsite
    obtain ⟨ps, hps, -⟩ := Placed.mem_declarers.mp he
    obtain ⟨c, hc, of⟩ := forall₂_getElem? hcs hps
    obtain ⟨tag, htag⟩ := of.tagged
    simp only [tagText, List.getElem?_map, hc, Option.map_some, htag]
    exact Linking.ofChecked_ends (tagged words more c (List.mem_of_getElem? hc) tag htag)

/-- The verdict is the same before the units are tagged and cleared and after. -/
theorem WellFormed.verdict_eq (wf : d.WellFormed lexicon) (spoken : d.Spoken lexicon)
    (hpss : List.Forall₂ LinkUnit.Unfolds d.units pss)
    (hcs : List.Forall₂ Collected.Of pss collected) {words : Lexicon}
    (more : lexicon.Extends words) (named : name ∈ d.roll space) :
    Court.judge ⟨collected.map (·.unit), d.types, words⟩ space name
        (Catalogue.sites (collected.map (·.declared)) space name) =
      d.verdict lexicon (space, name) := by
  have before : List.Forall₂ (fun site op => Court.op ⟨d.units, d.types, lexicon⟩ site = .ok op)
      (d.sites space name) ((Placed.declarers pss space name).map (·.2.op)) := by
    rw [sites_eq hpss, List.forall₂_map_left_iff, List.forall₂_map_right_iff, List.forall₂_same]
    exact fun e he => op_units hpss d.types lexicon he
  refine Court.judge_congr (heard_collected hcs d.types words space name) before rfl
    (kinds_declarers pss space name) (more.text name ?_) (fun op hop member hmember => ?_)
    fun op hop id hid => ?_
  · rw [roll, mem_distinct] at named
    obtain ⟨u, hu, hname⟩ := List.mem_flatMap.mp named
    obtain ⟨t, ht, hdeclared⟩ := List.mem_filterMap.mp hname
    refine wf.named u hu t ht name ?_
    rw [OpKind.declared?_eq, OpKind.declaredIn_eq_some.mp hdeclared]
    rfl
  · obtain ⟨u, hu, t, ht, heq, -⟩ := exists_tree_of_declarer hpss hop
    exact more.text member (spoken.members u hu t ht member (heq ▸ hmember))
  · obtain ⟨u, hu, t, ht, heq, -⟩ := exists_tree_of_declarer hpss hop
    have inside := wf.typed u hu t ht t.root t.root_mem_nodes id
      (List.mem_append_right _ (heq ▸ hid))
    obtain ⟨tree, htree⟩ := TyStore.exists_denotes wf.closed wf.acyclic inside
    rw [htree.display_eq, htree.display_eq]
    exact TyTree.text_congr fun name hname => more.text name (spoken.of_denotes htree name hname)

end

end Design

end Linkage
