import Linkage.Proofs.Acceptance
import Linkage.Proofs.Refinement
import Linkage.Proofs.Remnants
/-!
Which names are kept apart, in a design of any shape. It shows on what the units have at top level,
whether their operations form trees or not: a name of a kind gets new names in the units that define
it if no unit has a stub of it and two units or more define it.
-/
namespace Linkage

namespace LinkUnit

def surface (u : LinkUnit) : List OpKind :=
  u.body.filterMap fun id => (u.ops.get? id.index).map (·.kind)

end LinkUnit

namespace Design

def DistinctNames (d : Design) : Prop :=
  ∀ u ∈ d.units, (u.surface.filterMap (·.declared?)).Nodup

instance (d : Design) : Decidable d.DistinctNames :=
  inferInstanceAs (Decidable (∀ u ∈ d.units, (u.surface.filterMap (·.declared?)).Nodup))

/-- The names of declarations and the tags come from the lexicon. -/
structure Spelled (d : Design) (lexicon : Lexicon) : Prop where
  names : ∀ u ∈ d.units, ∀ kind ∈ u.surface, ∀ name ∈ kind.declared?, name.index < lexicon.size
  tags : ∀ u ∈ d.units, ∀ tag ∈ u.tag, tag.index < lexicon.size

/-- The declarations of a name, each with the position of its unit. -/
def surfaces (d : Design) (space : Space) (name : Name) : List (Nat × OpKind) :=
  d.units.zipIdx.flatMap fun (u, unit) =>
    (u.surface.filter (·.declaration? = some (space, name))).map (unit, ·)

def definers (d : Design) (space : Space) (name : Name) : List Nat :=
  ((d.surfaces space name).filter (!·.2.isStub)).map (·.1)

def Imported (d : Design) (space : Space) (name : Name) : Prop :=
  ∃ e ∈ d.surfaces space name, e.2.isStub = true

instance (d : Design) (space : Space) (name : Name) : Decidable (d.Imported space name) :=
  inferInstanceAs (Decidable (∃ e ∈ d.surfaces space name, e.2.isStub = true))

/-- A unit has to give its definition of a name a new one. -/
def Separates (policy : RenamePolicy) (d : Design) (space : Space) (name : Name) (unit : Nat) :
    Prop :=
  unit ∈ d.definers space name ∧ ¬ d.Imported space name ∧
    2 ≤ (d.definers space name).length ∧
    (policy = .renameAll ∨ (d.definers space name).head? ≠ some unit)

instance (policy : RenamePolicy) (d : Design) (space : Space) (name : Name) (unit : Nat) :
    Decidable (d.Separates policy space name unit) :=
  inferInstanceAs (Decidable (unit ∈ d.definers space name ∧ ¬ d.Imported space name ∧
    2 ≤ (d.definers space name).length ∧
    (policy = .renameAll ∨ (d.definers space name).head? ≠ some unit)))

/-- The text of the tag of a unit: its own tag, or the stem with the number of the units before it
that have none. -/
def tagOf (stem : String) (d : Design) (lexicon : Lexicon) (unit : Nat) : Option String :=
  d.units[unit]?.bind fun u => match u.tag with
    | some tag => (lexicon.text tag).toOption
    | none => some (NamePool.numbered stem ((d.units.take unit).countP (·.tag.isNone)))

variable {d : Design} {space space' : Space} {name : Name} {unit : Nat} {kind : OpKind}

theorem mem_surfaces : (unit, kind) ∈ d.surfaces space name ↔
    ∃ u, d.units[unit]? = some u ∧ kind ∈ u.surface ∧ kind.declaration? = some (space, name) := by
  simp only [surfaces, List.mem_flatMap, List.mem_map, List.mem_filter, decide_eq_true_eq,
    Prod.exists, List.mem_zipIdx_iff_getElem?, Prod.mk.injEq]
  constructor
  · rintro ⟨u, _, hu, _, ⟨hkind, declares⟩, rfl, rfl⟩
    exact ⟨u, hu, hkind, declares⟩
  · rintro ⟨u, hu, hkind, declares⟩
    exact ⟨u, unit, hu, kind, ⟨hkind, declares⟩, rfl, rfl⟩

theorem Spelled.lt_size {lexicon : Lexicon} (h : d.Spelled lexicon)
    (declares : (unit, kind) ∈ d.surfaces space name) : name.index < lexicon.size := by
  obtain ⟨u, hu, hkind, declaration⟩ := mem_surfaces.mp declares
  refine h.names u (List.mem_of_getElem? hu) kind hkind name ?_
  rw [OpKind.declared?_eq, declaration]
  rfl

theorem mem_definers : unit ∈ d.definers space name ↔
    ∃ kind, (unit, kind) ∈ d.surfaces space name ∧ kind.isStub = false := by
  simp only [definers, List.mem_map, List.mem_filter, Bool.not_eq_true', Prod.exists]
  constructor
  · rintro ⟨_, kind, ⟨hkind, real⟩, rfl⟩
    exact ⟨kind, hkind, real⟩
  · rintro ⟨kind, hkind, real⟩
    exact ⟨unit, kind, ⟨hkind, real⟩, rfl⟩

theorem DistinctNames.nodup (h : d.DistinctNames) (space : Space) (name : Name) :
    ((d.surfaces space name).map (·.1)).Nodup := by
  have once : ∀ u ∈ d.units,
      (u.surface.filter (·.declaration? = some (space, name))).length ≤ 1 := fun u hu =>
    length_filter_le_one (h u hu) (y := name) fun kind declares => by
      rw [OpKind.declared?_eq, of_decide_eq_true declares, Option.map_some]
  have positions := nodup_positions once 0
  unfold surfaces
  simpa [List.map_flatMap, Function.comp_def] using positions

theorem DistinctNames.space_eq (h : d.DistinctNames) {kind' : OpKind}
    (hkind : (unit, kind) ∈ d.surfaces space name)
    (hkind' : (unit, kind') ∈ d.surfaces space' name) : space = space' ∧ kind = kind' := by
  obtain ⟨u, hu, hmem, declares⟩ := mem_surfaces.mp hkind
  obtain ⟨u', hu', hmem', declares'⟩ := mem_surfaces.mp hkind'
  obtain rfl : u = u' := Option.some.inj (hu.symm.trans hu')
  obtain rfl := eq_of_nodup_filterMap (h u (List.mem_of_getElem? hu)) hmem hmem' (y := name)
    (by rw [OpKind.declared?_eq, declares, Option.map_some])
    (by rw [OpKind.declared?_eq, declares', Option.map_some])
  cases declares.symm.trans declares'
  exact ⟨rfl, rfl⟩

end Design

theorem RenamePolicy.mem_choose_iff {policy : RenamePolicy} {units : List Nat} (nodup : units.Nodup)
    {unit : Nat} : unit ∈ policy.choose units ↔
      unit ∈ units ∧ (policy = .renameAll ∨ units.head? ≠ some unit) := by
  cases policy with
  | renameAll => simp [choose]
  | keepFirst =>
    cases units with
    | nil => simp [choose]
    | cons first rest =>
      have fresh := (List.nodup_cons.mp nodup).1
      simp only [choose, List.drop_one, List.tail_cons, List.mem_cons, List.head?_cons,
        reduceCtorEq, false_or, ne_eq, Option.some.injEq]
      constructor
      · exact fun hrest => ⟨.inr hrest, fun same => fresh (same ▸ hrest)⟩
      · rintro ⟨rfl | hrest, other⟩
        · exact absurd rfl other
        · exact hrest

theorem Design.definers_eq {d : Design} {space : Space} {name : Name}
    (h : ¬ d.Imported space name) : d.definers space name = (d.surfaces space name).map (·.1) := by
  rw [definers, List.filter_eq_self.mpr fun e he => ?_]
  rw [Bool.not_eq_true', Bool.eq_false_iff]
  exact fun stub => h ⟨e, he, stub⟩

theorem Slots.forall₂_declarationAt (ops : Slots Op) (space : Space) (name : Name)
    (ids : List OpId) :
    List.Forall₂ (fun (d : Declaration) kind =>
        ∃ op, ops.get? d.op.index = some op ∧ op.kind = kind)
      ((ids.filterMap (ops.declarationAt space)).filter (·.name = name))
      ((ids.filterMap fun id => (ops.get? id.index).map (·.kind)).filter
        (·.declaration? = some (space, name))) := by
  induction ids with
  | nil => exact .nil
  | cons id rest ih =>
    cases hop : ops.get? id.index with
    | none => simpa [declarationAt, hop] using ih
    | some op =>
      cases hdeclares : op.kind.declaration? with
      | none => simpa [declarationAt, hop, hdeclares] using ih
      | some declaration =>
        obtain ⟨found, other⟩ := declaration
        by_cases hspace : found = space
        · by_cases hname : other = name
          · simpa [declarationAt, hop, hdeclares, hspace, hname] using ih
          · simpa [declarationAt, hop, hdeclares, hspace, hname] using ih
        · simpa [declarationAt, hop, hdeclares, hspace] using ih

def Design.Yields (d : Design) (collected : List Collected) : Prop :=
  List.Forall₂ (fun u c => ∃ tag, Collected.From { u with tag := some tag } c) d.units collected

theorem Design.yields_of_mapM {d : Design} {stem : String} {lexicon : Lexicon}
    {collected : List Collected}
    (h : (assignTags stem 0 lexicon d.units).1.mapM LinkUnit.collect = .ok collected) :
    d.Yields collected := by
  unfold Yields
  have tagged := assignTags_units stem d.units 0 lexicon
  have each := mapM_eq_ok.mp h
  generalize (assignTags stem 0 lexicon d.units).1 = units at tagged each
  generalize d.units = before at tagged
  clear h
  induction each generalizing before with
  | nil => cases tagged; exact .nil
  | cons hcollect _ ih =>
    cases tagged with
    | cons head rest =>
      obtain ⟨tag, rfl⟩ := head
      exact .cons ⟨tag, LinkUnit.collect_ok hcollect⟩ (ih _ rest)

theorem Design.exists_named {options : LinkOptions} {d : Design} {lexicon : Lexicon}
    {naming : Naming} (h : d.naming options lexicon = .ok naming) :
    ∃ collected,
      (assignTags options.tagStem 0 lexicon d.units).1.mapM LinkUnit.collect = .ok collected ∧
      Court.nameAll ⟨collected.map (·.unit), d.types,
          (assignTags options.tagStem 0 lexicon d.units).2⟩ options.policy
        (collected.map (·.declared)) = .ok naming := by
  obtain ⟨collected, hcollects, named⟩ := bind_eq_ok.mp h
  refine ⟨collected, ?_, named⟩
  cases hc : (assignTags options.tagStem 0 lexicon d.units).1.mapM LinkUnit.collect with
  | error fault => rw [hc] at hcollects; cases hcollects
  | ok found => rw [hc] at hcollects; cases hcollects; rfl

section

variable {options : LinkOptions} {d : Design} {lexicon : Lexicon} {collected : List Collected}
  {space : Space} {name : Name} {verdict : Bool}

theorem forall₂_sites (h : d.Yields collected)
    (lexicon : Lexicon) (space : Space) (name : Name) :
    List.Forall₂ (fun (site : Site) (e : Nat × OpKind) => site.unit = e.1 ∧ ∀ op,
        Court.op ⟨collected.map (·.unit), d.types, lexicon⟩ site = .ok op → op.kind = e.2)
      (Catalogue.sites (collected.map (·.declared)) space name) (d.surfaces space name) := by
  unfold Catalogue.sites Design.surfaces
  refine forall₂_flatMap_of_getElem? (by simp [h.length_eq]) ?_
  rintro i ⟨declared, unit⟩ ⟨u, unit'⟩ hdeclared hu
  simp only [List.getElem?_zipIdx, List.getElem?_map, Option.map_eq_some_iff,
    Prod.mk.injEq] at hdeclared hu
  obtain ⟨_, ⟨c, hc, rfl⟩, rfl, rfl⟩ := hdeclared
  obtain ⟨u, hu, rfl, rfl⟩ := hu
  obtain ⟨c', hc', tag, collectedFrom⟩ := forall₂_getElem? h hu
  obtain rfl : c = c' := Option.some.inj (hc.symm.trans hc')
  dsimp only
  rw [List.forall₂_map_left_iff, List.forall₂_map_right_iff, collectedFrom.declared]
  refine (u.ops.forall₂_declarationAt space name u.body).imp ?_
  rintro declaration _ ⟨op, hop, rfl⟩
  refine ⟨rfl, fun found hfound => ?_⟩
  have hunit : (collected.map (·.unit))[0 + i]? = some c.unit := by simp [hc]
  simp only [Court.op, hunit] at hfound
  split at hfound
  · cases hfound
  · next hget =>
    cases hfound
    exact congrArg (·.kind) (Option.some.inj ((collectedFrom.within _ _ hget).symm.trans hop))

theorem kinds_of_judge (h : d.Yields collected)
    (judged : Court.Judges ⟨collected.map (·.unit), d.types, lexicon⟩ space name
      (Catalogue.sites (collected.map (·.declared)) space name) verdict) :
    Settled ((d.surfaces space name).map (·.2)) verdict ∧
      (space = .modules → ExportedAlone ((d.surfaces space name).map (·.2))) := by
  obtain ⟨words, -, judged⟩ := judged
  obtain ⟨ops, hops, settled⟩ := Court.judge_ok judged
  have kinds : ops.map (·.kind) = (d.surfaces space name).map (·.2) :=
    map_eq_map_of_forall₂ hops (forall₂_sites h lexicon space name)
      fun _ op _ hop found => found.2 op hop
  rw [← kinds]
  refine ⟨settled, ?_⟩
  rintro rfl
  exact Court.exportedAlone_of_judgeModule hops judged

theorem map_unit_sites (h : d.Yields collected) (lexicon : Lexicon)
    (space : Space) (name : Name) :
    (Catalogue.sites (collected.map (·.declared)) space name).map (·.unit) =
      (d.surfaces space name).map (·.1) := by
  rw [← List.forall₂_eq_eq_eq, List.forall₂_map_left_iff, List.forall₂_map_right_iff]
  exact (forall₂_sites h lexicon space name).imp fun _ _ found => found.1

end

namespace Design

variable {options : LinkOptions} {d : Design} {lexicon : Lexicon} {naming : Naming}
  {space : Space} {name : Name} {unit : Nat} {kind : OpKind}

theorem isSome_get?_iff (distinct : d.DistinctNames) (h : d.naming options lexicon = .ok naming)
    (unit : Nat) (name : Name) : (naming.renames.get? unit name).isSome = true ↔
      ∃ space, d.Separates options.policy space name unit := by
  obtain ⟨collected, hcollects, named⟩ := exists_named h
  have yields := yields_of_mapM hcollects
  obtain ⟨judged, -, renamed⟩ := Court.nameAll_ok named
  rw [renamed]
  refine exists_congr fun space => ?_
  -- the sites stand in the order of the declarations, so the policy takes the same units of both
  have units := map_unit_sites yields lexicon space name
  have chosen : (∃ site ∈ options.policy.choose
      (Catalogue.sites (collected.map (·.declared)) space name), site.unit = unit) ↔
      unit ∈ (d.surfaces space name).map (·.1) ∧ (options.policy = .renameAll ∨
        ((d.surfaces space name).map (·.1)).head? ≠ some unit) := by
    rw [← RenamePolicy.mem_choose_iff (distinct.nodup space name), ← units,
      RenamePolicy.choose_map, List.mem_map]
  have count := congrArg List.length units
  rw [List.length_map, List.length_map] at count
  rw [chosen]
  constructor
  · rintro ⟨hjudge, hunit, policy⟩
    obtain ⟨⟨defined, several⟩, -⟩ := kinds_of_judge yields hjudge
    have unimported : ¬ d.Imported space name := by
      rintro ⟨e, he, stub⟩
      rw [defined _ (List.mem_map_of_mem he)] at stub
      cases stub
    have positive := List.length_pos_of_mem hunit
    rw [Separates, definers_eq unimported]
    refine ⟨hunit, unimported, ?_, policy⟩
    rw [List.length_map] at several positive ⊢
    omega
  · rintro ⟨hunit, unimported, several, policy⟩
    rw [definers_eq unimported] at hunit several policy
    refine ⟨?_, hunit, policy⟩
    rw [List.length_map] at several
    obtain ⟨verdict, hverdict⟩ := judged space name (List.length_pos_iff.mp (by omega))
    obtain ⟨settled, -⟩ := kinds_of_judge yields hverdict
    have told : verdict = true := by
      refine (settled.verdict_iff ?_).mpr ⟨List.all_eq_true.mpr ?_, by rw [List.length_map]; omega⟩
      · exact List.length_pos_iff.mp (by rw [List.length_map]; omega)
      · intro kind hkind
        obtain ⟨e, he, rfl⟩ := List.mem_map.mp hkind
        rw [Bool.not_eq_true', Bool.eq_false_iff]
        exact fun stub => unimported ⟨e, he, stub⟩
    exact told ▸ hverdict

/-- A name with a stub is renamed nowhere, and neither is an exported module. -/
theorem get?_eq_none_of_shared (distinct : d.DistinctNames)
    (h : d.naming options lexicon = .ok naming) (declares : (unit, kind) ∈ d.surfaces space name)
    (shared : d.Imported space name ∨ kind.isExported = true) :
    naming.renames.get? unit name = none := by
  refine Option.not_isSome_iff_eq_none.mp fun renamed => ?_
  obtain ⟨space', hunit, unimported, several, -⟩ :=
    (isSome_get?_iff distinct h unit name).mp renamed
  obtain ⟨kind', hkind', -⟩ := mem_definers.mp hunit
  obtain ⟨rfl, rfl⟩ := distinct.space_eq declares hkind'
  rcases shared with imported | exported
  · exact unimported imported
  · obtain ⟨_, -, -, declaration⟩ := mem_surfaces.mp declares
    obtain rfl : space = .modules := by
      cases kind with
      | moduleDef visibility head => cases declaration; rfl
      | _ => cases exported
    obtain ⟨collected, hcollects, named⟩ := exists_named h
    have yields := yields_of_mapM hcollects
    have count := congrArg List.length (map_unit_sites yields lexicon .modules name)
    rw [List.length_map, List.length_map] at count
    have positive := List.length_pos_of_mem declares
    obtain ⟨verdict, hverdict⟩ := (Court.nameAll_ok named).1 .modules name
      (List.length_pos_iff.mp (by omega))
    have alone := (kinds_of_judge yields hverdict).2 rfl kind
      (List.mem_map_of_mem declares) exported
    rw [definers, List.length_map] at several
    rw [List.filter_map, List.length_map] at alone
    exact absurd (Nat.le_trans several alone) (by decide)

theorem tagOf_eq {collected : List Collected} (spelled : d.Spelled lexicon)
    (hcollects : (assignTags options.tagStem 0 lexicon d.units).1.mapM LinkUnit.collect =
      .ok collected) {words : Lexicon}
    (more : (assignTags options.tagStem 0 lexicon d.units).2.Extends words) {tag : String}
    (h : tagText (collected.map (·.unit)) words unit = .ok tag) :
    d.tagOf options.tagStem lexicon unit = some tag := by
  unfold tagText at h
  rw [List.getElem?_map] at h
  cases hc : collected[unit]? with
  | none => rw [hc] at h; cases h
  | some c =>
    rw [hc] at h
    obtain ⟨u', hu', hcollect⟩ := forall₂_getElem? (mapM_eq_ok.mp hcollects).flip hc
    have tagged := assignTags_units options.tagStem d.units 0 lexicon
    obtain ⟨u, hu, -⟩ := forall₂_getElem? tagged.flip hu'
    cases htag : c.unit.tag with
    | none => simp only [Option.map_some, htag] at h; cases h
    | some name =>
      simp only [Option.map_some, htag, Linking.ofChecked_eq_ok] at h
      rw [(LinkUnit.collect_ok hcollect).tag] at htag
      have known := assignTags_known spelled.tags options.tagStem 0 u' (List.mem_of_getElem? hu')
        name htag
      rw [more.text name known, text_assignTags spelled.tags hu hu' htag, Nat.zero_add] at h
      rw [tagOf, hu, Option.bind_some]
      cases given : u.tag with
      | some given' =>
        rw [given] at h
        simp only [h]
        rfl
      | none =>
        rw [given] at h
        cases h
        rfl

theorem eq_of_text_eq (h : d.naming options lexicon = .ok naming) {unit' : Nat}
    {name' new new' : Name} (hget : naming.renames.get? unit name = some new)
    (hget' : naming.renames.get? unit' name' = some new') {text : String}
    (htext : naming.lexicon.text new = .ok text) (htext' : naming.lexicon.text new' = .ok text) :
    unit = unit' ∧ name = name' := by
  obtain ⟨collected, -, named⟩ := exists_named h
  obtain ⟨-, ⟨pool, -, sound⟩, -⟩ := Court.nameAll_ok named
  obtain rfl := Lexicon.text_inj htext htext'
  exact sound.apart _ _ _ _ _ hget hget'

theorem text_ne_of_declared (h : d.naming options lexicon = .ok naming) {unit' : Nat}
    {other new : Name} (hget : naming.renames.get? unit name = some new)
    (declares : (unit', kind) ∈ d.surfaces space other) {text : String}
    (htext : naming.lexicon.text new = .ok text) : lexicon.text other ≠ .ok text := by
  obtain ⟨collected, hcollects, named⟩ := exists_named h
  obtain ⟨-, ⟨pool, hpool, sound⟩, -⟩ := Court.nameAll_ok named
  have grown := assignTags_lexicon options.tagStem d.units 0 lexicon
  obtain ⟨site, hsite, -⟩ := forall₂_exists_left
    (forall₂_sites (yields_of_mapM hcollects) lexicon space other) declares
  -- a declared name is taken from the start, and what is given out was free then
  obtain ⟨taken, htaken, used⟩ := Catalogue.exists_text_of_mem_sites hpool hsite
  obtain ⟨given, hgiven, -, free⟩ := sound.given unit name new hget
  obtain rfl : given = text := Except.ok.inj (hgiven.symm.trans htext)
  intro same
  obtain rfl : given = taken := Except.ok.inj ((grown.text_eq_ok same).symm.trans htaken)
  rw [used] at free
  cases free

theorem exists_derived (spelled : d.Spelled lexicon) (h : d.naming options lexicon = .ok naming)
    {new : Name} (hget : naming.renames.get? unit name = some new) :
    ∃ space kind base text, (unit, kind) ∈ d.surfaces space name ∧
      lexicon.text name = .ok base ∧ naming.lexicon.text new = .ok text ∧
      match space with
      | .modules => NamePool.Derived base none text
      | .classes => ∃ tag, d.tagOf options.tagStem lexicon unit = some tag ∧
          NamePool.Derived base (some tag) text := by
  obtain ⟨collected, hcollects, named⟩ := exists_named h
  have grown := assignTags_lexicon options.tagStem d.units 0 lexicon
  obtain ⟨space, suffix, base, text, ⟨site, hsite, rfl⟩, suffixed, hbase, htext, derived⟩ :=
    Court.derived_of_nameAll named hget
  obtain ⟨⟨unit, kind⟩, declares, rfl, -⟩ :=
    forall₂_exists_right (forall₂_sites (yields_of_mapM hcollects) lexicon space name) hsite
  rw [grown.text name (spelled.lt_size declares)] at hbase
  refine ⟨space, kind, base, text, declares, hbase, htext, ?_⟩
  cases space with
  | modules =>
    obtain rfl : suffix = none := suffixed
    exact derived
  | classes =>
    obtain ⟨words, tag, more, htag, rfl⟩ := suffixed
    exact ⟨tag, tagOf_eq spelled hcollects more htag, derived⟩

end Design

/-- The renaming of a design in which no unit declares a name twice. Renamed is, in the units that
the policy says, every name of a kind that no unit has a stub of and two units or more define; no
name that other units rely on is. The new names all differ, and differ from the names of all
declarations; that of a module is the old one with a number, and that of a class the old one with
the tag of its unit, and maybe a number. -/
theorem naming_exact {options : LinkOptions} {d : Design} {lexicon : Lexicon} {naming : Naming}
    (distinct : d.DistinctNames) (spelled : d.Spelled lexicon)
    (h : d.naming options lexicon = .ok naming) :
    (∀ unit name, (∃ new, naming.renames.get? unit name = some new) ↔
      ∃ space, d.Separates options.policy space name unit) ∧
    (∀ space name unit kind, (unit, kind) ∈ d.surfaces space name →
      d.Imported space name ∨ kind.isExported = true → naming.renames.get? unit name = none) ∧
    ∀ unit name new, naming.renames.get? unit name = some new →
      ∃ base text, lexicon.text name = .ok base ∧ naming.lexicon.text new = .ok text ∧
        (∀ unit' name' new', naming.renames.get? unit' name' = some new' →
          naming.lexicon.text new' = .ok text → unit = unit' ∧ name = name') ∧
        (∀ u ∈ d.units, ∀ kind ∈ u.surface, ∀ other ∈ kind.declared?,
          lexicon.text other ≠ .ok text) ∧
        (unit ∈ d.definers .modules name → NamePool.Derived base none text) ∧
        (unit ∈ d.definers .classes name → ∃ tag,
          d.tagOf options.tagStem lexicon unit = some tag ∧
            NamePool.Derived base (some tag) text) := by
  refine ⟨fun unit name => ?_, fun space name unit kind declares shared =>
    Design.get?_eq_none_of_shared distinct h declares shared, fun unit name new hget => ?_⟩
  · rw [← Design.isSome_get?_iff distinct h, Option.isSome_iff_exists]
  obtain ⟨space, kind, base, text, declares, hbase, htext, derived⟩ :=
    Design.exists_derived spelled h hget
  refine ⟨base, text, hbase, htext, fun unit' name' new' hget' htext' =>
    Design.eq_of_text_eq h hget hget' htext htext', fun u hu kind hkind other hother => ?_, ?_⟩
  · rw [OpKind.declared?_eq, Option.mem_def, Option.map_eq_some_iff] at hother
    obtain ⟨⟨space, other⟩, declaration, rfl⟩ := hother
    obtain ⟨i, hi⟩ := List.getElem?_of_mem hu
    exact Design.text_ne_of_declared h hget
      (Design.mem_surfaces.mpr ⟨u, hi, hkind, declaration⟩) htext
  · have kinds : ∀ space', unit ∈ d.definers space' name → space = space' := fun space' hunit => by
      obtain ⟨kind', declares', -⟩ := Design.mem_definers.mp hunit
      exact (distinct.space_eq declares declares').1
    constructor
    · intro hunit
      obtain rfl := kinds _ hunit
      exact derived
    · intro hunit
      obtain rfl := kinds _ hunit
      exact derived

/-- Of the two units of the same class and module the second gets a class with its tag and a module
with a number, and the adder that the first relies on keeps its name. -/
theorem naming_exact_mux :
    ∃ naming cell mux text text', muxDesign.naming .standard muxNames = .ok naming ∧
      muxDesign.DistinctNames ∧ muxDesign.Spelled muxNames ∧
      naming.renames.get? 1 ⟨2⟩ = some cell ∧ naming.lexicon.text cell = .ok text ∧
      NamePool.Derived "cell" (some "module_1") text ∧
      naming.renames.get? 1 ⟨0⟩ = some mux ∧ naming.lexicon.text mux = .ok text' ∧
      NamePool.Derived "mux2" none text' ∧
      naming.renames.get? 1 ⟨1⟩ = none := by
  obtain ⟨linked, summary, h, success⟩ := Design.links_iff.mp muxDesign_links
  obtain ⟨p, -⟩ := link_phases h success
  have distinct : muxDesign.DistinctNames := by decide
  have spelled : muxDesign.Spelled muxNames := ⟨by decide, by decide⟩
  obtain ⟨exact_, kept, given⟩ := naming_exact distinct spelled p.naming_eq
  obtain ⟨cell, hcell⟩ := (exact_ 1 ⟨2⟩).mpr ⟨.classes, by decide⟩
  obtain ⟨mux, hmux⟩ := (exact_ 1 ⟨0⟩).mpr ⟨.modules, by decide⟩
  obtain ⟨base, text, hbase, htext, -, -, -, derived⟩ := given 1 ⟨2⟩ cell hcell
  obtain ⟨tag, htag, derived⟩ := derived (by decide)
  obtain rfl : "module_1" = tag := Option.some.inj htag
  obtain rfl : "cell" = base := Except.ok.inj hbase
  obtain ⟨base', text', hbase', htext', -, -, derived', -⟩ := given 1 ⟨0⟩ mux hmux
  obtain rfl : "mux2" = base' := Except.ok.inj hbase'
  exact ⟨p.naming, cell, mux, text, text', p.naming_eq, distinct, spelled, hcell, htext, derived,
    hmux, htext', derived' (by decide),
    kept .modules ⟨1⟩ 1 (.moduleDef .exported ⟨⟨1⟩, [⟨⟨4⟩, .input, ⟨0⟩⟩]⟩) (by decide)
      (.inr rfl)⟩

end Linkage
