import Linkage.Proofs.Cycles
import Linkage.Proofs.Descents
import Linkage.Proofs.Docket
import Linkage.Proofs.Readings
import Linkage.Proofs.Refinement
import Linkage.Proofs.Remnants
/-!
How a link may end on units of any shape, if no type contains itself: with an answer, at an
operation that is not there or is not counted, or at a type or a name that the design mentions and
does not have. Every phase is followed down to where it reads a slot, a type or a text, and these
are the only reads that fail.
-/
namespace Linkage

theorem Node.Within.imp {known known' : TyId → Prop} {spoken spoken' : Name → Prop} {n : Node}
    (h : n.Within known spoken) (types : ∀ id, known id → known' id)
    (words : ∀ name, spoken name → spoken' name) : n.Within known' spoken' :=
  ⟨fun id hid => types id (h.types id hid), fun name hname => words name (h.words name hname)⟩

namespace Court

variable {c : Court} {known : TyId → Prop} {spoken : Name → Prop} {excused : Fault → Prop}

theorem claimants_ends {α : Type} {classify : OpKind → Option (Bool × α)} {P : Node → Prop}
    {Q : α → Prop} (every : ∀ u ∈ c.units, u.ops.Every P)
    (speaks : ∀ (n : Node) stub a, P n → classify n.kind = some (stub, a) → Q a) (space : Space)
    (text : String) (sites : List Site) :
    Ends (fun found => (∀ stub ∈ found.stubs, Q stub.2) ∧
        ∀ definition ∈ found.definitions, Q definition.2)
      (Halt.Excused (fun _ => True) excused) (c.claimants space text classify sites) := by
  refine Ends.foldlM (fun found ⟨stubs, definitions⟩ site _ => ?_)
    ⟨List.forall_mem_nil _, List.forall_mem_nil _⟩
  have held : Ends (fun op : Op => P op.toNode) (Halt.Excused (fun _ => True) excused)
      (c.op site) := by
    unfold Court.op
    split
    · trivial
    · next u hu =>
      split
      · trivial
      · next op hop => exact every u (List.mem_of_getElem? hu) _ op hop
  refine held.bind fun op hop => ?_
  split
  · next a hclassify =>
    have heard : Q a := speaks op.toNode true a hop hclassify
    exact ⟨List.forall_mem_append.mpr ⟨stubs, List.forall_mem_singleton.mpr heard⟩, definitions⟩
  · next a hclassify =>
    have heard : Q a := speaks op.toNode false a hop hclassify
    exact ⟨stubs, List.forall_mem_append.mpr ⟨definitions, List.forall_mem_singleton.mpr heard⟩⟩
  · trivial

section

variable (readable : c.types.Readable c.lexicon known spoken excused)
  (every : ∀ u ∈ c.units, u.ops.Every (Node.Within known spoken))

include readable

theorem displays_ends {ids ids' : List TyId} (left : ∀ id ∈ ids, known id)
    (right : ∀ id ∈ ids', known id) :
    ∀ id ∈ ids ++ ids', Ends (fun _ => True) excused (c.types.display c.lexicon id) :=
  fun id hid => readable.display id (List.forall_mem_append.mpr ⟨left, right⟩ id hid)

theorem texts_ends {names names' : List Name} (left : ∀ n ∈ names, spoken n)
    (right : ∀ n ∈ names', spoken n) :
    ∀ n ∈ names ++ names', Ends (fun _ => True) excused (c.lexicon.text n) :=
  fun n hn => readable.text n (List.forall_mem_append.mpr ⟨left, right⟩ n hn)

include every

theorem judgeClass_ends {name : Name} (named : spoken name) (sites : List Site) :
    Linking.Answers (fun _ => True) excused (c.judgeClass name sites) := by
  refine Ends.bind (Linking.ofChecked_ends (readable.text name named)) fun text _ => ?_
  refine (claimants_ends (Q := fun head => (∀ id ∈ head.types, known id) ∧
    ∀ n ∈ head.fields.map (·.name), spoken n) every ?_ _ _ sites).bind
    fun found ⟨stubs, definitions⟩ => ?_
  · intro ⟨kind, span, attrs, results⟩ stub head within hclassify
    refine ⟨fun id hid => within.types id (List.mem_append_right _ ?_), fun n hn =>
      within.member n ?_⟩
    · cases kind <;> cases hclassify <;> exact hid
    · cases kind <;> cases hclassify <;> exact List.mem_append_right _ hn
  · refine Linking.Answers.imp (classRuling_answers fun definition hdefinition stub hstub => ?_)
      fun _ _ => trivial
    obtain ⟨types, fields⟩ := definitions definition hdefinition
    obtain ⟨types', fields'⟩ := stubs stub hstub
    exact objectToClass_ends (displays_ends readable types types')
      (texts_ends readable fields fields')

theorem judgeModule_ends {name : Name} (named : spoken name) (sites : List Site) :
    Linking.Answers (fun _ => True) excused (c.judgeModule name sites) := by
  refine Ends.bind (Linking.ofChecked_ends (readable.text name named)) fun text _ => ?_
  refine (claimants_ends (Q := fun a => (∀ id ∈ a.2.map (·.ty), known id) ∧
    ∀ n ∈ a.2.map (·.name), spoken n) every ?_ _ _ sites).bind
    fun found ⟨stubs, definitions⟩ => ?_
  · intro ⟨kind, span, attrs, results⟩ stub a within hclassify
    refine ⟨fun id hid => within.types id (List.mem_append_right _ ?_), fun n hn =>
      within.member n ?_⟩
    · cases kind <;> cases hclassify <;> exact hid
    · cases kind <;> cases hclassify <;> exact hn
  · refine Linking.Answers.imp (moduleRuling_answers fun definition hdefinition stub hstub => ?_)
      fun _ _ => trivial
    obtain ⟨types, ports⟩ := definitions definition hdefinition
    obtain ⟨types', ports'⟩ := stubs stub hstub
    exact objectToPorts_ends (displays_ends readable types types')
      (texts_ends readable ports ports')

theorem judge_ends (space : Space) {name : Name} (named : spoken name) (sites : List Site) :
    Linking.Answers (fun _ => True) excused (c.judge space name sites) := by
  cases space with
  | classes => exact judgeClass_ends readable every named sites
  | modules => exact judgeModule_ends readable every named sites

end

end Court

namespace Design

/-- The types that a design mentions, in an operation or as part of a type. -/
def Mentions (d : Design) (id : TyId) : Prop :=
  (∃ u ∈ d.units, ∃ slot op, u.ops.get? slot = some op ∧ id ∈ op.types) ∨
    ∃ whole, d.types.PartOf id whole

/-- The names that a design mentions, in an operation, as a tag or in a type. -/
def Utters (d : Design) (name : Name) : Prop :=
  (∃ u ∈ d.units, name ∈ u.tag ∨ ∃ slot op, u.ops.get? slot = some op ∧ name ∈ op.words) ∨
    ∃ ty ∈ d.types.toList, name ∈ ty.former.classes

/-- The faults that the data of a design has to answer for: an operation is not in its slot, a unit
holds more operations than it counts, or a type or a name that the design mentions is not there. -/
inductive Excuses (d : Design) (lexicon : Lexicon) : Fault → Prop
  | vacant (slot : Nat) : Excuses d lexicon (.vacant slot)
  | uncounted {u : LinkUnit} (hu : u ∈ d.units) (short : u.ops.live < u.ops.occupied) :
    Excuses d lexicon .countUnderflow
  | unknownType (id : TyId) (missing : d.types.size ≤ id.index) (mentioned : d.Mentions id) :
    Excuses d lexicon (.unknownType id.index)
  | unknownName (name : Name) (missing : lexicon.size ≤ name.index) (uttered : d.Utters name) :
    Excuses d lexicon (.unknownName name.index)

/-- The types that a pass comes upon once the store has grown. -/
def Knows (d : Design) (types : TyStore) (id : TyId) : Prop :=
  d.Mentions id ∨ ∃ t, types.Denotes id t

def Says (d : Design) (words : Lexicon) (name : Name) : Prop :=
  d.Utters name ∨ name.index < words.size

def Spends (d : Design) (ops : Slots Op) : Prop := ∃ u ∈ d.units, u.ops.Spent ops

variable {d : Design} {lexicon words : Lexicon}

theorem Spends.excuses {ops : Slots Op} (h : d.Spends ops) {fault : Fault}
    (stops : ops.Stops fault) : d.Excuses lexicon fault := by
  obtain ⟨u, hu, spent⟩ := h
  cases spent.stops stops with
  | vacant slot => exact .vacant slot
  | uncounted short => exact .uncounted hu short

theorem Spends.trans {ops ops' : Slots Op} (h : d.Spends ops) (spent : ops.Spent ops') :
    d.Spends ops' := by
  obtain ⟨u, hu, before⟩ := h
  exact ⟨u, hu, before.trans spent⟩

theorem excuses_of_lacks {fault : Fault} (h : d.types.Lacks fault) : d.Excuses lexicon fault := by
  obtain ⟨missing, rfl, beyond, part⟩ := h
  exact .unknownType missing beyond (.inr part)

theorem text_ends (more : lexicon.size ≤ words.size) {name : Name} (said : d.Says words name) :
    Ends (fun _ => True) (d.Excuses lexicon) (words.text name) := by
  refine (words.text_ends name).imp (fun _ _ => trivial) ?_
  rintro _ ⟨beyond, rfl⟩
  rcases said with uttered | inside
  · exact .unknownName name (more.trans beyond) uttered
  · omega

/-- The classes of all stored types are names that a pass may come upon. -/
def Voices (d : Design) (words : Lexicon) (types : TyStore) : Prop :=
  ∀ ty ∈ types.toList, ∀ name ∈ ty.former.classes, d.Says words name

theorem voices_self (d : Design) (words : Lexicon) : d.Voices words d.types :=
  fun ty hty _ hname => .inl (.inr ⟨ty, hty, hname⟩)

theorem Voices.intern {types : TyStore} (h : d.Voices words types) {ty : Ty}
    (said : ∀ name ∈ ty.former.classes, d.Says words name) :
    d.Voices words (types.intern ty).2 := by
  intro stored hstored
  rcases TyStore.mem_toList_intern hstored with before | rfl
  · exact h stored before
  · exact said

theorem voices_keeps {rename : Name → Option Name}
    (renamed : ∀ name new, rename name = some new → new.index < words.size) :
    TyStore.Keeps (d.Voices words) rename where
  renamed {s name new} hnew h := h.intern fun other hother => by
    obtain rfl := List.mem_singleton.mp hother
    exact .inr (renamed name other hnew)
  rebuilt {s u id ty} hty h hu ids := hu.intern fun name hname => by
    rw [Ty.former_withParts] at hname
    exact h ty (TyStore.mem_toList_of_get hty) name hname

/-- In a store that has grown out of that of the design everything can be read that a pass comes
upon, but for what the design itself does not have. -/
theorem readable {types : TyStore} (echoes : d.types.Echoes types) (acyclic : d.types.Acyclic)
    (voices : d.Voices words types) (more : lexicon.size ≤ words.size) :
    types.Readable words (d.Knows types) (d.Says words) (d.Excuses lexicon) := by
  have excused : ∀ id fault, d.Knows types id → d.types.Missing types id fault →
      d.Excuses lexicon fault := by
    rintro id _ known ⟨missing, rfl, beyond, rfl | part⟩
    · rcases known with mentioned | ⟨t, ht⟩
      · exact .unknownType missing (echoes.older.trans beyond) mentioned
      · exact absurd ht.lt_size (Nat.not_lt_of_le beyond)
    · exact .unknownType missing (echoes.older.trans beyond) (.inr part)
  refine ⟨fun id known => ?_, fun id known => ?_, fun name said => text_ends more said⟩
  · refine (echoes.display_ends acyclic id words).imp (fun _ h => h) ?_
    rintro fault (missing | ⟨whole, name, -, stored, beyond, rfl⟩)
    · exact excused id fault known missing
    · rcases voices _ (TyStore.mem_toList_of_get stored) name List.mem_cons_self with
        uttered | inside
      · exact .unknownName name (more.trans beyond) uttered
      · omega
  · refine (echoes.classes_ends acyclic id).self.imp (fun names hnames => ?_) (excused id · known)
    obtain ⟨t, ht⟩ := TyStore.exists_denotes_of_classesWithin hnames
    obtain rfl : t.classes = names := Except.ok.inj (ht.classes_eq.symm.trans hnames)
    exact ht.classes_known voices

end Design

theorem LinkUnit.collect_ends {u : LinkUnit} {P : Node → Prop} (every : u.ops.Every P) :
    Ends (fun c => c.unit.ops.Every P ∧ u.ops.Spent c.unit.ops) u.ops.Stops u.collect := by
  refine (u.sweep_ends every (fun id op declared holds => ?_) Declared.empty).bind fun _ h => h
  unfold Declared.note
  split <;> exact holds

/-- Rewriting a unit ends, and leaves types that were known, or come from the remap, and names that
were spoken, or come from the renaming. -/
theorem LinkUnit.rewrite_ends {u : LinkUnit} {d : Design} {types : TyStore} {words : Lexicon}
    {remap : TyRemap} (every : u.ops.Every (Node.Within (d.Knows types) (d.Says words)))
    (lands : TyRemap.Lands types remap) (unit : Nat) {renames : Renaming}
    (renamed : ∀ name new, renames.get? unit name = some new → new.index < words.size) :
    Ends (fun out => out.2.ops.Every (Node.Within (d.Knows types) (d.Says words)) ∧
      u.ops.Spent out.2.ops) u.ops.Stops (u.rewrite unit renames remap) := by
  refine (u.sweep_ends every (fun id op counts holds => ?_)
    (⟨0, 0, 0⟩ : RewriteCounts)).bind fun _ h => h
  unfold RewriteCounts.visit
  split
  · exact holds
  · rw [Node.rewrite_eq]
    refine ⟨fun new hnew => ?_, fun name hname => ?_⟩
    · rw [Node.types_substitute] at hnew
      obtain ⟨old, hold, rfl⟩ := List.mem_map.mp hnew
      rcases lands old with same | found
      · rw [same]
        exact holds.types old hold
      · exact .inr found
    · rcases Node.mem_words_substitute hname with before | ⟨old, hold, rfl⟩
      · exact holds.words name before
      · unfold Renaming.apply
        cases hget : renames.get? unit old with
        | none => exact holds.words old hold
        | some new => exact .inr (renamed old new hget)

theorem LinkUnit.short_of_not_covered {u : LinkUnit} (short : ¬ u.Covered) :
    u.ops.live < u.ops.occupied := by
  have sized := Slots.size_extractEach Slots.size_extract u.ops u.body
  unfold Covered forest at short
  omega

theorem mergeUnits_ends (units : List LinkUnit) :
    Ends (fun merged => merged = joined units)
      (fun fault => fault = .countUnderflow ∧ ∃ u ∈ units, u.ops.live < u.ops.occupied)
      (mergeUnits units) := by
  rw [mergeUnits_eq]
  by_cases covered : ∀ u ∈ units, u.Covered
  · rw [if_pos covered]
    exact rfl
  · rw [if_neg covered]
    obtain ⟨u, hu, short⟩ := not_forall₂.mp covered
    exact ⟨rfl, u, hu, LinkUnit.short_of_not_covered short⟩

namespace Design

variable {d : Design} {lexicon words : Lexicon}

/-- What a link has of a unit once it has collected from it: nothing but what the design mentions,
and a tag. -/
structure Gathers (d : Design) (words : Lexicon) (c : Collected) : Prop where
  within : c.unit.ops.Every (Node.Within d.Mentions d.Utters)
  spends : d.Spends c.unit.ops
  tag : ∀ tag ∈ c.unit.tag, d.Says words tag
  declared : ∀ space, ∀ declaration ∈ c.declared.of space, d.Utters declaration.name

theorem gathers_of_collect {u : LinkUnit} (hu : u ∈ d.units) {tag : Name}
    (tagged : d.Says words tag) :
    Ends (d.Gathers words) (d.Excuses lexicon)
      (LinkUnit.collect { u with tag := some tag }) := by
  have within : u.ops.Every (Node.Within d.Mentions d.Utters) := fun slot op hop =>
    ⟨fun id hid => .inl ⟨u, hu, slot, op, hop, hid⟩,
      fun name hname => .inl ⟨u, hu, .inr ⟨slot, op, hop, hname⟩⟩⟩
  have ends := LinkUnit.collect_ends (u := { u with tag := some tag }) within
  cases hcollect : LinkUnit.collect { u with tag := some tag } with
  | error fault =>
    rw [hcollect] at ends
    exact Spends.excuses ⟨u, hu, .refl _⟩ ends
  | ok c =>
    rw [hcollect] at ends
    obtain ⟨every, spent⟩ := ends
    have origin := LinkUnit.collect_ok hcollect
    refine ⟨every, ⟨u, hu, spent⟩, fun given hgiven => ?_, fun space declaration hmem => ?_⟩
    · rw [origin.tag] at hgiven
      obtain rfl := Option.some.inj hgiven
      exact tagged
    · rw [origin.declared] at hmem
      obtain ⟨id, -, noted⟩ := List.mem_filterMap.mp hmem
      obtain ⟨op, hop, named⟩ := Slots.exists_of_declarationAt noted
      refine (within _ op hop).declared declaration.name ?_
      rw [OpKind.declared?_eq, named]
      rfl

theorem collects_ends (stem : String) :
    Ends (fun collected => ∀ c ∈ collected, d.Gathers (assignTags stem 0 lexicon d.units).2 c)
      (d.Excuses lexicon) ((assignTags stem 0 lexicon d.units).1.mapM LinkUnit.collect) := by
  refine (Ends.mapM (R := fun _ c => d.Gathers (assignTags stem 0 lexicon d.units).2 c)
    fun u' hu' => ?_).imp (fun collected each c hc => ?_) fun _ h => h
  · obtain ⟨u, hu, tag, rfl⟩ := forall₂_exists_left (assignTags_units stem d.units 0 lexicon) hu'
    refine gathers_of_collect hu ?_
    rcases assignTags_given stem d.units 0 lexicon _ hu' tag rfl with ⟨v, hv, given⟩ | inside
    · exact .inl (.inl ⟨v, hv, .inl given⟩)
    · exact .inr inside
  · obtain ⟨_, -, gathers⟩ := forall₂_exists_left each hc
    exact gathers

variable (acyclic : d.types.Acyclic)

include acyclic

theorem nameAll_ends {collected : List Collected} (more : lexicon.size ≤ words.size)
    (gathers : ∀ c ∈ collected, d.Gathers words c) (policy : RenamePolicy) :
    Ends (fun naming : Naming => words.Extends naming.lexicon ∧ ∀ unit name new,
        naming.renames.get? unit name = some new → new.index < naming.lexicon.size)
      (Halt.Excused (fun _ => True) (d.Excuses lexicon))
      (Court.nameAll ⟨collected.map (·.unit), d.types, words⟩ policy
        (collected.map (·.declared))) := by
  have uttered : ∀ name ∈ (collected.map (·.declared)).flatMap Catalogue.roll, d.Utters name := by
    intro name hname
    obtain ⟨declared, hdeclared, hname⟩ := List.mem_flatMap.mp hname
    obtain ⟨c, hc, rfl⟩ := List.mem_map.mp hdeclared
    obtain ⟨space, declaration, hmem, rfl⟩ := Catalogue.mem_roll.mp hname
    exact (gathers c hc).declared space declaration hmem
  have ends : Ends (fun naming : Naming => words.Extends naming.lexicon)
      (Halt.Excused (fun _ => True) (d.Excuses lexicon))
      (Court.nameAll ⟨collected.map (·.unit), d.types, words⟩ policy
        (collected.map (·.declared))) := by
    refine Court.nameAll_ends (fun name hname => ?_) (fun later grown space name hname => ?_)
      fun later grown space name site hsite => ?_
    · exact text_ends more (.inl (uttered name hname))
    · refine Court.judge_ends (readable (.refl d.types) acyclic (d.voices_self later)
        (more.trans grown.size)) (fun u hu slot op hop => ?_) space
        (.inl (uttered name (Catalogue.mem_roll_of_mem_names hname))) _
      obtain ⟨c, hc, rfl⟩ := List.mem_map.mp hu
      exact ((gathers c hc).within slot op hop).imp (fun _ => .inl) fun _ => .inl
    · unfold tagText
      split
      · trivial
      · next u hu =>
        split
        · trivial
        · next tag htag =>
          obtain ⟨c, hc, rfl⟩ := List.mem_map.mp (List.mem_of_getElem? hu)
          have said : d.Says later tag := ((gathers c hc).tag tag htag).imp_right
            fun inside => Nat.lt_of_lt_of_le inside grown.size
          exact Linking.ofChecked_ends (text_ends (more.trans grown.size) said)
  refine ends.self.imp (fun naming named => ?_) fun _ h => h
  obtain ⟨-, ⟨_, -, sound⟩, -⟩ := Court.nameAll_ok named
  exact ⟨sound.lexicon, fun unit name new => sound.known⟩

theorem rewrite_ends {collected : List Collected} {later : Lexicon} {renames : Renaming}
    (gathers : ∀ c ∈ collected, d.Gathers words c)
    (renamed : ∀ unit name new, renames.get? unit name = some new → new.index < later.size) :
    Ends (fun out => d.types.Echoes out.2.2.types ∧ d.Voices later out.2.2.types ∧
        ∀ u ∈ out.2.2.units, d.Spends u.ops ∧
          u.ops.Every (Node.Within (d.Knows out.2.2.types) (d.Says later)))
      (d.Excuses lexicon) (rewrite ⟨d.types, collected.map (·.unit)⟩ renames) := by
  refine (Ends.self ((TyRemap.buildAll_ends acyclic (collected.map (·.unit)).length
    renames).imp (fun _ h => h) fun _ => excuses_of_lacks)).bind ?_
  rintro ⟨remaps, types⟩ hbuild
  have lands := (TyRemap.buildAll_ends acyclic _ renames).of_ok hbuild
  obtain ⟨echoes, lands⟩ := lands
  have voices : d.Voices later types :=
    TyStore.Keeps.buildAll (fun unit => voices_keeps (renamed unit)) hbuild (d.voices_self later)
  refine (Ends.mapM (R := fun _ out => d.Spends out.2.ops ∧
    out.2.ops.Every (Node.Within (d.Knows types) (d.Says later))) ?_).bind
    fun rewritten holds => ⟨echoes, voices, fun u hu => ?_⟩
  · rintro ⟨⟨u, remap⟩, unit⟩ he
    have listed := List.of_mem_zip (List.fst_mem_of_mem_zipIdx he)
    obtain ⟨c, hc, rfl⟩ := List.mem_map.mp listed.1
    have within : c.unit.ops.Every (Node.Within (d.Knows types) (d.Says later)) :=
      fun slot op hop => ((gathers c hc).within slot op hop).imp (fun _ => .inl) fun _ => .inl
    exact (LinkUnit.rewrite_ends within (lands remap listed.2) unit (renamed unit)).imp
      (fun _ ⟨within, spent⟩ => ⟨(gathers c hc).spends.trans spent, within⟩)
      fun _ => (gathers c hc).spends.excuses
  · obtain ⟨out, hout, rfl⟩ := List.mem_map.mp hu
    obtain ⟨_, -, known⟩ := forall₂_exists_left holds hout
    exact known

theorem finish_ends {rewritten : Design} (echoes : d.types.Echoes rewritten.types)
    (voices : d.Voices words rewritten.types) (more : lexicon.size ≤ words.size)
    (every : ∀ u ∈ rewritten.units, d.Spends u.ops ∧
      u.ops.Every (Node.Within (d.Knows rewritten.types) (d.Says words)))
    (verify : Bool) (summary : Nat → Summary) (log : Log) :
    Ends (fun _ => True) (d.Excuses lexicon) (finish verify rewritten summary words log) := by
  have merges : Ends (fun merged => merged = joined rewritten.units) (d.Excuses lexicon)
      (mergeUnits rewritten.units) := by
    refine (mergeUnits_ends rewritten.units).imp (fun _ h => h) ?_
    rintro _ ⟨rfl, u, hu, short⟩
    exact (every u hu).1.excuses (.uncounted short)
  refine merges.bind ?_
  rintro _ rfl
  obtain ⟨forest, trees⟩ := joined_forest rewritten.units
  have within : ∀ t ∈ (joined rewritten.units).forest, ∀ n ∈ t.nodes,
      n.Within (d.Knows rewritten.types) (d.Says words) := by
    intro t ht
    rw [trees] at ht
    obtain ⟨u, hu, ht⟩ := List.mem_flatMap.mp ht
    exact LinkUnit.nodes_of_every (every u hu).2 t ht
  have misuses := LinkUnit.misuses_ends forest (readable echoes acyclic voices more) within
  cases verify with
  | false => trivial
  | true =>
    simp only [if_true]
    refine misuses.self.bind fun found hfound => ?_
    cases found with
    | nil => trivial
    | cons first others =>
      -- the name that the failure speaks of is in a report already
      obtain ⟨_, -, told⟩ := LinkUnit.told_of_misuses forest hfound first List.mem_cons_self
      obtain ⟨text, htext⟩ := told.exists_text
      simp only [htext, ok_bind]
      trivial

theorem linkUnits_ends (options : LinkOptions) (lexicon : Lexicon) (log : Log) :
    Ends (fun _ => True) (d.Excuses lexicon) (linkUnits options d lexicon log) := by
  have more := (assignTags_lexicon options.tagStem d.units 0 lexicon).size
  unfold linkUnits
  refine (collects_ends options.tagStem).bind fun collected gathers => ?_
  have named := nameAll_ends acyclic more gathers options.policy
  dsimp only
  split
  · next fault heq =>
    rw [heq] at named
    exact named
  · trivial
  · next naming heq =>
    obtain ⟨grown, renamed⟩ := named.of_ok heq
    refine (rewrite_ends acyclic gathers renamed).bind
      fun ⟨_, counts, rewritten⟩ ⟨echoes, voices, every⟩ => ?_
    exact finish_ends acyclic echoes voices (more.trans grown.size) every _ _ _

theorem link_ends (pool : WorkerPool) (options : LinkOptions) (lexicon : Lexicon) (log : Log) :
    Ends (fun _ => True) (d.Excuses lexicon) (link pool options d lexicon log) := by
  unfold link
  split
  · exact linkUnits_ends acyclic options lexicon log
  · trivial

end Design

theorem Slots.settle_ends {α β : Type} (ops : Slots α) (read : β × Slots α) :
    (∃ out, ops.settle read = .ok out) ∨
      ops.live < ops.occupied ∧ ops.settle read = .error .countUnderflow := by
  unfold settle
  split
  · exact .inl ⟨_, rfl⟩
  · exact .inr ⟨by omega, rfl⟩

theorem Slots.uproot_ends (ops : Slots Op) (id : OpId) :
    (∃ out, ops.uproot id = .ok out) ∨
      ops.live < ops.occupied ∧ ops.uproot id = .error .countUnderflow := by
  rw [settles_uproot _ ops id (Nat.le_refl _)]
  exact ops.settle_ends _

theorem LinkUnit.erase_ends (u : LinkUnit) (id : OpId) :
    (∃ out, u.erase id = .ok out) ∨
      u.ops.live < u.ops.occupied ∧ u.erase id = .error .countUnderflow := by
  unfold erase
  split
  · rw [Slots.prune_eq]
    rcases u.ops.settle_ends (Tree.sizeOfList (u.ops.extract id).1.toList, (u.ops.extract id).2)
      with ⟨out, h⟩ | ⟨short, h⟩
    · rw [h]
      exact .inl ⟨_, rfl⟩
    · rw [h]
      exact .inr ⟨short, rfl⟩
  · exact .inl ⟨_, rfl⟩

theorem LinkUnit.splice_ends (u other : LinkUnit) :
    (∃ u', u.splice other = .ok u') ∨
      other.ops.live < other.ops.occupied ∧ u.splice other = .error .countUnderflow := by
  rw [splice_eq]
  by_cases covered : other.Covered
  · rw [if_pos covered]
    exact .inl ⟨_, rfl⟩
  · rw [if_neg covered]
    exact .inr ⟨short_of_not_covered covered, rfl⟩

/-- A link comes to an end, whatever the operations contain, shared, in cycles or missing, if no
type contains itself: with an answer, or with an operation that is not in its slot, a type or a name
that is mentioned but not there, or a unit that holds more operations than it counts. So do its
passes, each on any unit: a sweep, whatever the visitor does, for an operation that it is inside of
contains nothing; the removal of operations and the merger of units, for every step of taking
operations out empties a slot; the walk over a merged unit, for that is a forest whatever was
merged; and the search for a fresh name. -/
theorem link_halts {d : Design} (acyclic : d.types.Acyclic) (pool : WorkerPool)
    (options : LinkOptions) (lexicon : Lexicon) (log : Log) :
    ((∃ linked, link pool options d lexicon log = .ok linked) ∨
      (∃ slot, link pool options d lexicon log = .error (.vacant slot)) ∨
      (∃ id : TyId, d.types.size ≤ id.index ∧ d.Mentions id ∧
        link pool options d lexicon log = .error (.unknownType id.index)) ∨
      (∃ name : Name, lexicon.size ≤ name.index ∧ d.Utters name ∧
        link pool options d lexicon log = .error (.unknownName name.index)) ∨
      (∃ u ∈ d.units, u.ops.live < u.ops.occupied) ∧
        link pool options d lexicon log = .error .countUnderflow) ∧
    (∀ (u : LinkUnit) (σ : Type) (visit : Visitor σ) (state : σ),
      (∃ swept, u.sweep visit state = .ok swept) ∨
      (∃ slot, u.sweep visit state = .error (.vacant slot)) ∨
        u.ops.live < u.ops.occupied ∧ u.sweep visit state = .error .countUnderflow) ∧
    (∀ (ops : Slots Op) (id : OpId),
      Slots.uprootWithin (ops.occupied + 1) ops id = ops.uproot id ∧
      ((∃ out, ops.uproot id = .ok out) ∨
        ops.live < ops.occupied ∧ ops.uproot id = .error .countUnderflow)) ∧
    (∀ (u : LinkUnit) (id : OpId), (∃ out, u.erase id = .ok out) ∨
      u.ops.live < u.ops.occupied ∧ u.erase id = .error .countUnderflow) ∧
    (∀ u other : LinkUnit, (∃ u', u.splice other = .ok u') ∨
      other.ops.live < other.ops.occupied ∧ u.splice other = .error .countUnderflow) ∧
    (∀ units : List LinkUnit,
      (∃ merged, mergeUnits units = .ok merged ∧ merged.IsForest ∧
        ∀ (σ : Type) (excused : Fault → Prop) (visit : σ → OpId → Op → Checked σ),
          (∀ s id op, Ends (fun _ => True) excused (visit s id op)) →
          ∀ s, Ends (fun _ => True) excused (merged.fold visit s)) ∨
      (∃ u ∈ units, u.ops.live < u.ops.occupied) ∧
        mergeUnits units = .error .countUnderflow) ∧
    ∀ (names : NamePool) base suffix,
      names.contains (names.allocate base suffix).1 = false := by
  refine ⟨?_, fun u σ visit state => ?_, fun ops id => ⟨?_, ops.uproot_ends id⟩,
    fun u id => u.erase_ends id, fun u other => u.splice_ends other, fun units => ?_,
    NamePool.allocate_fresh⟩
  · have ends := Design.link_ends acyclic pool options lexicon log
    cases outcome : link pool options d lexicon log with
    | ok linked => exact .inl ⟨linked, rfl⟩
    | error fault =>
      rw [outcome] at ends
      cases ends with
      | vacant slot => exact .inr (.inl ⟨slot, rfl⟩)
      | unknownType id missing mentioned => exact .inr (.inr (.inl ⟨id, missing, mentioned, rfl⟩))
      | unknownName name missing uttered =>
        exact .inr (.inr (.inr (.inl ⟨name, missing, uttered, rfl⟩)))
      | uncounted hu short => exact .inr (.inr (.inr (.inr ⟨⟨_, hu, short⟩, rfl⟩)))
  · have ends : Ends (fun _ => True) u.ops.Stops (u.sweep visit state) :=
      (u.sweep_ends (P := fun _ => True) (fun _ _ _ => trivial) (fun _ _ _ _ => trivial)
        state).imp (fun _ _ => trivial) fun _ h => h
    cases outcome : u.sweep visit state with
    | ok swept => exact .inl ⟨swept, rfl⟩
    | error fault =>
      rw [outcome] at ends
      cases ends with
      | vacant slot => exact .inr (.inl ⟨slot, rfl⟩)
      | uncounted short => exact .inr (.inr ⟨short, rfl⟩)
  · rw [Slots.settles_uproot _ ops id (Nat.le_refl _)]
    exact Slots.settles_uprootWithin ops.occupied_le_size ops id (Nat.le_refl _)
  · cases outcome : mergeUnits units with
    | ok merged =>
      obtain ⟨-, rfl⟩ := mergeUnits_eq_ok.mp outcome
      have forest := (joined_forest units).1
      exact .inl ⟨_, rfl, forest, fun σ excused visit each => forest.fold_ends each⟩
    | error fault =>
      have ends := mergeUnits_ends units
      rw [outcome] at ends
      obtain ⟨rfl, short⟩ := ends
      exact .inr ⟨short, rfl⟩

/-- A module that contains itself, twice, and a part that contains the module; a second unit refers
to an operation that is not there. -/
def tangledDesign : Design where
  types := ⟨#[.bool, .list ⟨0⟩]⟩
  units :=
    [muxUnit
      [muxOp (.moduleDef .local ⟨⟨0⟩, [⟨⟨4⟩, .input, ⟨1⟩⟩]⟩) [] [[⟨0⟩, ⟨1⟩], [⟨0⟩]],
        muxOp (.generic ⟨3⟩) [] [[⟨0⟩, ⟨1⟩]]] [⟨0⟩],
      muxUnit [muxOp (.moduleDef .local ⟨⟨1⟩, []⟩) [] [[⟨7⟩]]] [⟨0⟩]]

/-- The operations in cycles do not keep the link from getting to the one that is missing. -/
theorem link_halts_tangled :
    tangledDesign.types.Acyclic ∧ (∀ u ∈ tangledDesign.units, ¬ u.IsForest) ∧
      link .granted .standard tangledDesign muxNames .empty = .error (.vacant 7) ∧
      ∃ linked, link .granted .standard ⟨tangledDesign.types, tangledDesign.units.take 1⟩
        muxNames .empty = .ok linked := by
  have acyclic : tangledDesign.types.Acyclic := TyStore.Ordered.acyclic (by decide)
  have missing : (link .granted .standard tangledDesign muxNames .empty).map (fun _ => ()) =
      .error (.vacant 7) := by decide +kernel
  have through : (link .granted .standard ⟨tangledDesign.types, tangledDesign.units.take 1⟩
      muxNames .empty).map (fun _ => ()) = .ok () := by decide +kernel
  refine ⟨acyclic, by decide, eq_error_of_map missing, ?_⟩
  have ends := (link_halts (d := ⟨tangledDesign.types, tangledDesign.units.take 1⟩) acyclic .granted
    .standard muxNames .empty).1
  rcases ends with h | ⟨slot, h⟩ | ⟨id, -, -, h⟩ | ⟨name, -, -, h⟩ | ⟨-, h⟩
  · exact h
  · rw [h] at through
    cases through
  · rw [h] at through
    cases through
  · rw [h] at through
    cases through
  · rw [h] at through
    cases through

def untypedDesign : Design where
  types := .empty
  units := [muxUnit [muxOp (.moduleDef .exported ⟨⟨0⟩, [⟨⟨4⟩, .input, ⟨5⟩⟩]⟩) [] []] [⟨0⟩]]

/-- No type contains itself and no operation is missing, but the link does not get past the type. -/
theorem link_stops_at_type :
    untypedDesign.types.Acyclic ∧
      link .granted .standard untypedDesign muxNames .empty = .error (.unknownType 5) ∧
      ¬ ((∃ linked, link .granted .standard untypedDesign muxNames .empty = .ok linked) ∨
        ∃ slot, link .granted .standard untypedDesign muxNames .empty = .error (.vacant slot)) := by
  have stops : (link .granted .standard untypedDesign muxNames .empty).map (fun _ => ()) =
      .error (.unknownType 5) := by decide +kernel
  have outcome := eq_error_of_map stops
  refine ⟨TyStore.Ordered.acyclic (by decide), outcome, ?_⟩
  rw [outcome]
  rintro (⟨linked, h⟩ | ⟨slot, h⟩)
  · cases h
  · cases h

end Linkage
