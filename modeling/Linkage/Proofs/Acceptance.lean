import Linkage.Proofs.Resolution
import Linkage.Proofs.RollCall
/-!
Names that are not turned down. A name goes through if it has definitions to be told apart or one
that every stub agrees with, and if an exported definition of it stands alone; and a link in which
every name goes through has a renaming.
-/
namespace Linkage

def OpKind.isExported : OpKind → Bool
  | .moduleDef .exported _ => true
  | _ => false

/-- Every operation that is exported is the only definition of its name. -/
def ExportedAlone (kinds : List OpKind) : Prop :=
  ∀ kind ∈ kinds, kind.isExported = true → (kinds.filter (!·.isStub)).length ≤ 1

namespace Court

variable {α : Type} {c : Court} {space : Space} {text : String}

theorem exists_claimants (space : Space) (text : String)
    {classify : OpKind → Option (Bool × α)} {sites : List Site} {ops : List Op}
    (hops : List.Forall₂ (fun site op => c.op site = .ok op) sites ops)
    (known : ∀ op ∈ ops, (classify op.kind).isSome = true) :
    ∃ found, c.claimants space text classify sites = .ok found := by
  refine exists_foldlM sites (fun found site hsite => ?_) _
  obtain ⟨op, hop, hsite⟩ := forall₂_exists_right hops hsite
  obtain ⟨⟨stub, a⟩, hclassify⟩ := Option.isSome_iff_exists.mp (known op hop)
  simp only [hsite, ok_bind, hclassify]
  cases stub
  · exact ⟨_, rfl⟩
  · exact ⟨_, rfl⟩

theorem judgeStubs_of_agree {object : α → α → Checked (Option Objection)} {definition : Span × α}
    {stubs : List (Span × α)} (h : ∀ stub ∈ stubs, object definition.2 stub.2 = .ok none) :
    c.judgeStubs space text object definition stubs = .ok () := by
  induction stubs with
  | nil => rfl
  | cons stub rest ih =>
    obtain ⟨head, others⟩ := List.forall_mem_cons.mp h
    simp only [judgeStubs, head]
    exact ih others

theorem settle_of_settled (classify : OpKind → Option (Bool × α))
    {object : α → α → Checked (Option Objection)} {ops : List Op}
    (unobjected : ∀ definition, ∀ stub ∈ ops.map (·.kind), ∀ a b,
      classify definition = some (false, a) → classify stub = some (true, b) →
      definition.Agrees stub → object a b = .ok none)
    {found : Claimants α} {verdict : Bool}
    (hstubs : List.Forall₂ (fun op (s : Span × α) => classify op.kind = some (true, s.2))
      (ops.filter (·.kind.isStub)) found.stubs)
    (hdefinitions : List.Forall₂ (fun op (s : Span × α) => classify op.kind = some (false, s.2))
      (ops.filter (!·.kind.isStub)) found.definitions)
    (settled : Settled (ops.map (·.kind)) verdict) :
    c.settle space text object found = .ok verdict := by
  have definitions : (ops.map (·.kind)).filter (!·.isStub) =
      (ops.filter (!·.kind.isStub)).map (·.kind) := List.filter_map
  cases settled with
  | apart defined several =>
    have none_ : ops.filter (·.kind.isStub) = [] :=
      List.filter_eq_nil_iff.mpr fun op hop => by simp [defined _ (List.mem_map_of_mem hop)]
    have all : ops.filter (!·.kind.isStub) = ops :=
      List.filter_eq_self.mpr fun op hop => by simp [defined _ (List.mem_map_of_mem hop)]
    rw [none_, List.forall₂_nil_left_iff] at hstubs
    have count : found.definitions.length ≠ 1 := by
      rw [← hdefinitions.length_eq, all]
      simpa using several
    simp [settle, hstubs, count]
  | together kind only agrees =>
    rw [definitions] at only
    obtain ⟨op, hop, rfl⟩ := List.map_eq_singleton_iff.mp only
    rw [hop] at hdefinitions
    obtain ⟨definition, nothing, hdefinition, hnothing, heq⟩ :=
      List.forall₂_cons_left_iff.mp hdefinitions
    rw [List.forall₂_nil_left_iff.mp hnothing] at heq
    have agree : ∀ stub ∈ found.stubs, object definition.2 stub.2 = .ok none := by
      intro stub hstub
      obtain ⟨op', hop', hclassify⟩ := forall₂_exists_left hstubs hstub
      obtain ⟨hmem, isStub⟩ := List.mem_filter.mp hop'
      have heard : op'.kind ∈ ops.map (·.kind) := List.mem_map_of_mem hmem
      exact unobjected _ _ heard _ _ hdefinition hclassify (agrees _ heard isStub)
    unfold settle
    rw [heq]
    split
    · rfl
    · simp only [judgeStubs_of_agree agree]
      rfl

theorem classifyModule_eq_some {kind : OpKind} {stub : Bool} {a : Visibility × List Port}
    (h : classifyModule kind = some (stub, a)) :
    kind.isStub = stub ∧ (stub = false → (a.1 == .exported) = kind.isExported) := by
  cases kind with
  | moduleDef visibility head => cases h; cases visibility <;> exact ⟨rfl, fun _ => rfl⟩
  | moduleStub head => cases h; exact ⟨rfl, fun unwanted => by cases unwanted⟩
  | _ => cases h

theorem judgeModule_of_settled {name : Name} {sites : List Site} {ops : List Op} {verdict : Bool}
    (hops : List.Forall₂ (fun site op => c.op site = .ok op) sites ops)
    (kinds : ∀ op ∈ ops, op.kind.declaration?.map (·.1) = some .modules)
    (settled : Settled (ops.map (·.kind)) verdict) (alone : ExportedAlone (ops.map (·.kind)))
    (named : name.index < c.lexicon.size) : c.judgeModule name sites = .ok verdict := by
  have known : ∀ op ∈ ops, (classifyModule op.kind).isSome = true := by
    intro op hop
    have kind := kinds op hop
    cases hkind : op.kind <;> rw [hkind] at kind <;> first | rfl | cases kind
  obtain ⟨text, htext⟩ := Lexicon.exists_text named
  obtain ⟨found, hfound⟩ := exists_claimants .modules text hops known
  obtain ⟨ops', stubs, definitions, hops', heq, hstubs, hdefinitions⟩ :=
    claimants_ok classifyModule (fun _ _ _ h => (classifyModule_eq_some h).1) hfound
  obtain rfl := ops_unique hops hops'
  have settles : c.settle .modules text
      (fun definition stub => c.objectToPorts definition.2 stub.2) found = .ok verdict := by
    refine settle_of_settled classifyModule ?_ (by simpa [heq] using hstubs)
      (by simpa [heq] using hdefinitions) settled
    intro definition stub _ a b hdefinition hstub agree
    cases definition <;> cases hdefinition
    cases stub <;> cases hstub
    simp only [objectToPorts]
    rw [show PortDifference.find _ _ = none from agree]
  refine bind_eq_ok.mpr ⟨text, Linking.ofChecked_eq_ok.mpr htext, ?_⟩
  refine bind_eq_ok.mpr ⟨found, hfound, ?_⟩
  split
  · next first second rest hfirst =>
    split
    · next exported =>
      -- exported, it would be the only definition, and there are two
      obtain ⟨s, hs, hexported⟩ := List.any_eq_true.mp exported
      have hs' : s ∈ definitions := by simpa [heq] using hs
      obtain ⟨op, hop, hclassify⟩ := forall₂_exists_left hdefinitions hs'
      have marked : op.kind.isExported = true := by
        rw [← (classifyModule_eq_some hclassify).2 rfl]
        exact hexported
      have single := alone _ (List.mem_map_of_mem (List.mem_filter.mp hop).1) marked
      rw [List.filter_map, List.length_map] at single
      have count : (ops.filter (!·.kind.isStub)).length = definitions.length :=
        hdefinitions.length_eq
      have several : definitions = first :: second :: rest := by simpa [heq] using hfirst
      rw [several] at count
      simp only [List.length_cons, Function.comp_def] at count single
      omega
    · exact settles
  · exact settles

theorem exportedAlone_of_judgeModule {name : Name} {sites : List Site} {ops : List Op}
    {verdict : Bool} (hops : List.Forall₂ (fun site op => c.op site = .ok op) sites ops)
    (h : c.judgeModule name sites = .ok verdict) : ExportedAlone (ops.map (·.kind)) := by
  obtain ⟨text, -, h⟩ := bind_eq_ok.mp h
  obtain ⟨found, hfound, h⟩ := bind_eq_ok.mp h
  obtain ⟨ops', stubs, definitions, hops', rfl, -, hdefinitions⟩ :=
    claimants_ok classifyModule (fun _ _ _ h => (classifyModule_eq_some h).1) hfound
  obtain rfl := ops_unique hops hops'
  intro kind hkind exported
  obtain ⟨op, hop, rfl⟩ := List.mem_map.mp hkind
  have real : op.kind.isStub = false := by
    cases hkind : op.kind <;> rw [hkind] at exported <;> first | rfl | cases exported
  obtain ⟨s, hs, hclassify⟩ := forall₂_exists_right hdefinitions
    (List.mem_filter.mpr ⟨hop, by simp [real]⟩)
  have marked : definitions.any (·.2.1 == .exported) = true :=
    List.any_eq_true.mpr ⟨s, hs, by rw [(classifyModule_eq_some hclassify).2 rfl, exported]⟩
  have single : definitions.length ≤ 1 := by
    simp only [List.nil_append, marked, if_true] at h
    split at h
    · cases h
    · next few =>
      match definitions with
      | [] => simp
      | [_] => simp
      | first :: second :: rest => exact (few first second rest rfl).elim
  rw [List.filter_map, List.length_map]
  exact hdefinitions.length_eq.trans_le single

theorem judgeClass_of_settled {name : Name} {sites : List Site} {ops : List Op} {verdict : Bool}
    (hops : List.Forall₂ (fun site op => c.op site = .ok op) sites ops)
    (kinds : ∀ op ∈ ops, op.kind.declaration?.map (·.1) = some .classes)
    (settled : Settled (ops.map (·.kind)) verdict) (named : name.index < c.lexicon.size)
    (members : ∀ op ∈ ops, op.kind.isStub = true →
      ∀ member ∈ op.kind.members, member.index < c.lexicon.size) :
    c.judgeClass name sites = .ok verdict := by
  have known : ∀ op ∈ ops, (classifyClass op.kind).isSome = true := by
    intro op hop
    have kind := kinds op hop
    cases hkind : op.kind <;> rw [hkind] at kind <;> first | rfl | cases kind
  obtain ⟨text, htext⟩ := Lexicon.exists_text named
  obtain ⟨found, hfound⟩ := exists_claimants .classes text hops known
  obtain ⟨ops', stubs, definitions, hops', heq, hstubs, hdefinitions⟩ :=
    claimants_ok classifyClass (by intro kind stub a h; cases kind <;> cases h <;> rfl) hfound
  obtain rfl := ops_unique hops hops'
  refine bind_eq_ok.mpr ⟨text, Linking.ofChecked_eq_ok.mpr htext, ?_⟩
  refine bind_eq_ok.mpr ⟨found, hfound, settle_of_settled classifyClass ?_
    (by simpa [heq] using hstubs) (by simpa [heq] using hdefinitions) settled⟩
  intro definition stub hmem a b hdefinition hstub agree
  cases definition <;> cases hdefinition
  cases stub <;> cases hstub
  obtain ⟨op, hop, hkind⟩ := List.mem_map.mp hmem
  have fields : ∀ field ∈ b.fields, field.name.index < c.lexicon.size := by
    intro field hfield
    refine members op hop (by rw [hkind]; rfl) field.name ?_
    rw [hkind]
    exact List.mem_append_right _ (List.mem_map_of_mem hfield)
  simp only [objectToClass]
  rw [ClassDifference.search_of_known fields, show ClassDifference.find _ _ = none from agree]
  rfl

theorem judge_of_settled {name : Name} {sites : List Site} {ops : List Op} {verdict : Bool}
    (hops : List.Forall₂ (fun site op => c.op site = .ok op) sites ops)
    (kinds : ∀ op ∈ ops, op.kind.declaration?.map (·.1) = some space)
    (settled : Settled (ops.map (·.kind)) verdict) (alone : ExportedAlone (ops.map (·.kind)))
    (named : name.index < c.lexicon.size)
    (members : ∀ op ∈ ops, op.kind.isStub = true →
      ∀ member ∈ op.kind.members, member.index < c.lexicon.size) :
    c.judge space name sites = .ok verdict := by
  cases space with
  | classes => exact judgeClass_of_settled hops kinds settled named members
  | modules => exact judgeModule_of_settled hops kinds settled alone named

def nameOne (c : Court) (policy : RenamePolicy) : Space → Naming → Name × List Site → Linking Naming
  | .classes => c.nameClass policy
  | .modules => c.nameModule policy

theorem nameOne_of_error {policy : RenamePolicy} {naming : Naming} {name : Name}
    {sites : List Site} {halt : Halt} (h : (c.after naming).judge space name sites = .error halt) :
    c.nameOne policy space naming (name, sites) = .error halt := by
  cases space with
  | classes =>
    have judged : (c.after naming).judgeClass name sites = .error halt := h
    simp only [nameOne, nameClass, judged]
    rfl
  | modules =>
    have judged : (c.after naming).judgeModule name sites = .error halt := h
    simp only [nameOne, nameModule, judged]
    rfl

variable {declared : List Declared} {policy : RenamePolicy} {excused : Halt → Prop}

theorem nameOne_ends {name : Name} {sites : List Site} {naming : Naming}
    (words : c.lexicon.Extends naming.lexicon) {text : String}
    (named : c.lexicon.text name = .ok text)
    (judged : Ends (fun _ => True) excused ((c.after naming).judge space name sites))
    (tagged : ∀ words, c.lexicon.Extends words → ∀ site ∈ sites,
      Ends (fun _ => True) excused (tagText c.units words site.unit)) :
    Ends (fun naming' : Naming => c.lexicon.Extends naming'.lexicon) excused
      (c.nameOne policy space naming (name, sites)) := by
  have freshens : ∀ n : Naming, c.lexicon.Extends n.lexicon → ∀ unit suffix,
      Ends (fun n' : Naming => c.lexicon.Extends n'.lexicon) excused
        (Linking.ofChecked (n.freshen name unit suffix)) := by
    intro n hn unit suffix
    obtain ⟨n', hn', more⟩ := exists_freshen
      (Nat.lt_of_lt_of_le (Lexicon.lt_size_of_text named) hn.size) unit suffix
    exact ends_of_ok (Linking.ofChecked_eq_ok.mpr hn') (hn.trans more)
  cases space with
  | classes =>
    refine Ends.bind (x := (c.after naming).judgeClass name sites) judged fun verdict _ => ?_
    cases verdict with
    | false => exact words
    | true =>
      refine Ends.foldlM (fun n hn site hsite => ?_) words
      have heard : site ∈ sites := policy.choose_subset (policy.select_eq sites ▸ hsite)
      exact (tagged n.lexicon hn site heard).bind fun tag _ => freshens n hn site.unit (some tag)
  | modules =>
    refine Ends.bind (x := (c.after naming).judgeModule name sites) judged fun verdict _ => ?_
    cases verdict with
    | false => exact words
    | true => exact Ends.foldlM (fun n hn site _ => freshens n hn site.unit none) words

/-- Naming takes the texts of all declared names and goes through the docket. -/
theorem nameAll_eq (c : Court) (policy : RenamePolicy) (declared : List Declared) :
    c.nameAll policy declared =
      Linking.ofChecked (NamePool.empty.takeAll c.lexicon (declared.flatMap Catalogue.roll)) >>=
        fun pool => (docket (Catalogue.names declared)).foldlM
          (fun naming e => c.nameOne policy e.1 naming (e.2, Catalogue.sites declared e.1 e.2))
          ⟨.empty, pool, c.lexicon⟩ := by
  have modules := Catalogue.entries_table declared .modules
  have classes := Catalogue.entries_table declared .classes
  unfold nameAll
  rw [Catalogue.ofDeclared_eq]
  cases NamePool.empty.takeAll c.lexicon (declared.flatMap Catalogue.roll) with
  | error fault => rfl
  | ok pool =>
    simp only [Linking.ofChecked, Except.mapError, ok_bind, modules, classes, docket,
      List.foldlM_append, List.foldlM_map]
    rfl

theorem nameAll_ends
    (listed : ∀ name ∈ declared.flatMap Catalogue.roll,
      Ends (fun _ => True) (fun fault => excused (.fault fault)) (c.lexicon.text name))
    (judged : ∀ words, c.lexicon.Extends words → ∀ space, ∀ name ∈ Catalogue.names declared space,
      Ends (fun _ => True) excused
        ((c.knowing words).judge space name (Catalogue.sites declared space name)))
    (tagged : ∀ words, c.lexicon.Extends words → ∀ space name,
      ∀ site ∈ Catalogue.sites declared space name,
        Ends (fun _ => True) excused (tagText c.units words site.unit)) :
    Ends (fun naming : Naming => c.lexicon.Extends naming.lexicon) excused
      (c.nameAll policy declared) := by
  rw [nameAll_eq]
  refine (Linking.ofChecked_ends (NamePool.empty.takeAll_ends listed).self).bind
    fun pool hpool => ?_
  refine Ends.foldlM (fun naming words e he => ?_) (.refl c.lexicon)
  have onDocket : e.2 ∈ Catalogue.names declared e.1 := mem_docket.mp he
  obtain ⟨text, named⟩ :=
    NamePool.known_of_takeAll hpool e.2 (Catalogue.mem_roll_of_mem_names onDocket)
  exact nameOne_ends words named (judged naming.lexicon words e.1 e.2 onDocket)
    fun words more => tagged words more e.1 e.2

end Court

def Design.Acceptable (d : Design) (space : Space) (name : Name) : Prop :=
  (∃ verdict, Settled ((d.declarers space name).map (·.2.root.kind)) verdict) ∧
    ExportedAlone ((d.declarers space name).map (·.2.root.kind))

namespace Design

variable {d : Design} {lexicon : Lexicon}

theorem named_collected {pss : List (List Placed)} {collected : List Collected}
    {P : Name → Prop}
    (named : ∀ u ∈ d.units, ∀ t ∈ u.forest, ∀ name ∈ t.root.kind.declared?, P name)
    (hpss : List.Forall₂ LinkUnit.Unfolds d.units pss)
    (hcs : List.Forall₂ Collected.Of pss collected) :
    ∀ name ∈ (collected.map (·.declared)).flatMap Catalogue.roll, P name := by
  intro name hname
  obtain ⟨declared, hdeclared, hroll⟩ := List.mem_flatMap.mp hname
  obtain ⟨c, hc, rfl⟩ := List.mem_map.mp hdeclared
  obtain ⟨space, declaration, hmem, rfl⟩ := Catalogue.mem_roll.mp hroll
  obtain ⟨ps, hps, of⟩ := forall₂_exists_left hcs hc
  obtain ⟨u, hu, unfolds⟩ := forall₂_exists_left hpss hps
  rw [of.declared] at hmem
  obtain ⟨p, hp, hdeclares⟩ := List.mem_filterMap.mp hmem
  refine named u hu p.tree ?_ declaration.name ?_
  · rw [LinkUnit.forest_eq unfolds]
    exact List.mem_map_of_mem hp
  · rw [Placed.root_tree, OpKind.declared?_eq]
    unfold Placed.declarationIn at hdeclares
    split at hdeclares
    · next found name hkind =>
      split at hdeclares
      · cases hdeclares
        simp [hkind]
      · cases hdeclares
    · cases hdeclares

theorem members_declarers {pss : List (List Placed)}
    (members : ∀ u ∈ d.units, ∀ t ∈ u.forest, t.root.kind.isStub = true →
      ∀ name ∈ t.root.kind.members, name.index < lexicon.size)
    (hpss : List.Forall₂ LinkUnit.Unfolds d.units pss) {space : Space} {name : Name} :
    ∀ op ∈ (Placed.declarers pss space name).map (·.2.op), op.kind.isStub = true →
      ∀ member ∈ op.kind.members, member.index < lexicon.size := by
  intro op hop stub member hmember
  obtain ⟨e, he, rfl⟩ := List.mem_map.mp hop
  obtain ⟨ps, hps, hp, -⟩ := Placed.mem_declarers.mp he
  obtain ⟨u, hu, unfolds⟩ := forall₂_getElem? hpss.flip hps
  refine members u (List.mem_of_getElem? hu) e.2.tree ?_ (by rwa [Placed.root_tree]) member
    (by rwa [Placed.root_tree])
  rw [LinkUnit.forest_eq unfolds]
  exact List.mem_map_of_mem hp

theorem exists_naming (forest : ∀ u ∈ d.units, u.IsForest) (covered : d.Covered)
    (named : ∀ u ∈ d.units, ∀ t ∈ u.forest, ∀ name ∈ t.root.kind.declared?,
      name.index < lexicon.size)
    (tags : ∀ u ∈ d.units, ∀ tag ∈ u.tag, tag.index < lexicon.size)
    (members : ∀ u ∈ d.units, ∀ t ∈ u.forest, t.root.kind.isStub = true →
      ∀ name ∈ t.root.kind.members, name.index < lexicon.size)
    (acceptable : ∀ space name, d.declarers space name ≠ [] → d.Acceptable space name)
    (options : LinkOptions) : ∃ naming, d.naming options lexicon = .ok naming := by
  obtain ⟨collected, hcollects⟩ := covered.exists_collected forest options.tagStem lexicon
  obtain ⟨pss, hpss, hcs, -⟩ := Design.unfolds_of_collects forest hcollects
  have more := (assignTags_lexicon options.tagStem d.units 0 lexicon).size
  have listed := named_collected named hpss hcs
  unfold naming
  simp only [hcollects]
  refine (Court.nameAll_ends (fun name hname => ?_) (fun words grows space name hname => ?_)
    fun words grows space name site hsite => ?_).exists_ok.imp fun _ => And.left
  · exact Lexicon.text_answers (Nat.lt_of_lt_of_le (listed name hname) more)
  · obtain ⟨⟨verdict, settled⟩, alone⟩ := acceptable space name
      (mt (sites_eq_nil_iff hpss hcs).mpr (Catalogue.sites_ne_nil_of_mem_names hname))
    have enough := Nat.le_trans more grows.size
    have known := listed name (Catalogue.mem_roll_of_mem_names hname)
    rw [← kinds_heard hpss] at settled alone
    refine ends_of_ok (Court.judge_of_settled (heard_collected hcs d.types words space name)
      (kinds_declarers pss space name) settled alone (Nat.lt_of_lt_of_le known enough)
      fun op hop stub member hmember => ?_) trivial
    exact Nat.lt_of_lt_of_le (members_declarers members hpss op hop stub member hmember) enough
  · obtain ⟨tag, htag⟩ := tagged_collected hcs (known_tags tags hcollects) space name site hsite
    exact ends_of_ok (Court.tagText_of_extends grows htag) trivial

end Design

end Linkage
