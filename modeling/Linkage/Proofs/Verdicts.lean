import Linkage.Link.Verdict
import Linkage.Proofs.Mentions
import Linkage.Proofs.Passes
import Linkage.Proofs.Sequence
/-!
What a verdict says. A name whose definitions are to be renamed apart has no stub and not one
definition; any other name that is not turned down has exactly one, and every stub agrees with it.
-/
namespace Linkage

/-- What may halt a court: a name that is turned down for a good reason, or a fault that is
excused. -/
def Halt.Excused (reason : Rejection → Prop) (excused : Fault → Prop) : Halt → Prop
  | .fault broken => excused broken
  | .rejected rejection => reason rejection

namespace Linking

abbrev Answers {α : Type} (reason : Rejection → Prop) (excused : Fault → Prop) : Linking α → Prop :=
  Ends (fun _ => True) (Halt.Excused reason excused)

theorem Answers.of_rejected {α : Type} {reason : Rejection → Prop} {excused : Fault → Prop}
    {x : Linking α} {r : Rejection} (h : Answers reason excused x)
    (hx : x = .error (.rejected r)) : reason r := by
  subst hx
  exact h

theorem Answers.imp {α : Type} {reason reason' : Rejection → Prop} {excused : Fault → Prop}
    {x : Linking α} (h : Answers reason excused x) (weaker : ∀ r, reason r → reason' r) :
    Answers reason' excused x := by
  refine Ends.imp h (fun _ done => done) fun halt halts => ?_
  cases halt with
  | fault fault => exact halts
  | rejected r => exact weaker r halts

theorem ofChecked_ends {α : Type} {good : α → Prop} {excused : Halt → Prop} {x : Checked α}
    (h : Ends good (fun fault => excused (.fault fault)) x) : Ends good excused (ofChecked x) := by
  cases x with
  | ok a => exact h
  | error fault => exact h

theorem ofChecked_eq_ok {α : Type} {x : Checked α} {a : α} : ofChecked x = .ok a ↔ x = .ok a := by
  cases x with
  | error fault => simp [ofChecked, Except.mapError]
  | ok b => simp [ofChecked, Except.mapError]

theorem foldlM_ofChecked {α β : Type} {f : β → α → Checked β} {xs : List α} {b b' : β} :
    xs.foldlM (fun b a => ofChecked (f b a)) b = .ok b' ↔ xs.foldlM f b = .ok b' := by
  induction xs generalizing b with
  | nil => simp [pure, Except.pure]
  | cons a rest ih => simp only [List.foldlM_cons, bind_eq_ok, ofChecked_eq_ok, ih]

end Linking

namespace ClassDifference

variable {lexicon : Lexicon} {definition stub : ClassHead}

/-- The first difference of two classes, whether or not their names can be read. -/
def find (definition stub : ClassHead) : Option ClassDifference :=
  if definition.params.length ≠ stub.params.length then
    some (.paramCount definition.params.length stub.params.length)
  else
    (firstParam 0 definition.params stub.params).or <|
      (stub.fields.findSome? (ofField definition)).or <|
        (definition.fields.find? fun f => (stub.field? f.name).isNone).map (.uncovered ·.name)

theorem firstField_ok {fields : List Field} {difference : Option ClassDifference}
    (h : firstField lexicon definition fields = .ok difference) :
    difference = fields.findSome? (ofField definition) := by
  induction fields with
  | nil =>
    cases h
    rfl
  | cons field rest ih =>
    obtain ⟨_, -, h⟩ := bind_eq_ok.mp h
    rw [List.findSome?_cons]
    split at h
    · next found hfound =>
      cases h
      rw [hfound]
    · next hfound =>
      rw [hfound]
      exact ih h

theorem firstField_of_known {fields : List Field}
    (known : ∀ field ∈ fields, field.name.index < lexicon.size) :
    firstField lexicon definition fields = .ok (fields.findSome? (ofField definition)) := by
  induction fields with
  | nil => rfl
  | cons field rest ih =>
    obtain ⟨first, others⟩ := List.forall_mem_cons.mp known
    obtain ⟨text, htext⟩ := Lexicon.exists_text first
    rw [firstField, htext, ok_bind, List.findSome?_cons]
    cases ofField definition field with
    | none => exact ih others
    | some difference => rfl

/-- A search that goes through found the first difference. -/
theorem search_ok {difference : Option ClassDifference}
    (h : search lexicon definition stub = .ok difference) : difference = find definition stub := by
  unfold search at h
  unfold find
  split at h
  · next counts =>
    cases h
    rw [if_pos counts]
  · next counts =>
    rw [if_neg counts]
    split at h
    · next found hfound =>
      cases h
      rw [hfound]
      rfl
    · next hparam =>
      rw [hparam]
      obtain ⟨first, hfirst, h⟩ := bind_eq_ok.mp h
      obtain rfl := firstField_ok hfirst
      split at h
      · next found hfound =>
        cases h
        rw [hfound]
        rfl
      · next hfound =>
        cases h
        rw [hfound]
        rfl

theorem search_of_known (known : ∀ field ∈ stub.fields, field.name.index < lexicon.size) :
    search lexicon definition stub = .ok (find definition stub) := by
  unfold search find
  split
  · rfl
  · cases firstParam 0 definition.params stub.params with
    | some difference => rfl
    | none =>
      rw [firstField_of_known known]
      cases stub.fields.findSome? (ofField definition) with
      | some difference => rfl
      | none => rfl

end ClassDifference

def OpKind.members : OpKind → List Name
  | .classDef head | .classStub head => head.params.map (·.name) ++ head.fields.map (·.name)
  | .moduleDef _ head | .moduleStub head => head.ports.map (·.name)
  | .object _ _ | .generic _ => []

/-- The names in an operation that are looked up or written out, those in its types apart. -/
def Node.words (n : Node) : List Name :=
  n.kind.declared?.toList ++ n.kind.members ++ n.kind.class?.toList ++ n.refs

def OpKind.Agrees : OpKind → OpKind → Prop
  | .moduleDef _ definition, .moduleStub stub =>
    PortDifference.find definition.ports stub.ports = none
  | .classDef definition, .classStub stub => ClassDifference.find definition stub = none
  | _, _ => False

/-- What a verdict says of the declarations of a name. -/
inductive Settled (kinds : List OpKind) : Bool → Prop
  | apart (defined : ∀ kind ∈ kinds, kind.isStub = false) (several : kinds.length ≠ 1) :
      Settled kinds true
  | together (definition : OpKind) (only : kinds.filter (!·.isStub) = [definition])
      (agrees : ∀ stub ∈ kinds, stub.isStub = true → definition.Agrees stub) :
      Settled kinds false

theorem Settled.unique {kinds : List OpKind} {verdict verdict' : Bool} (h : Settled kinds verdict)
    (h' : Settled kinds verdict') : verdict = verdict' := by
  have differ : Settled kinds true → Settled kinds false → False := by
    rintro (⟨defined, several⟩) (⟨⟩ | ⟨definition, only, -⟩)
    have all : kinds.filter (!·.isStub) = kinds :=
      List.filter_eq_self.mpr fun kind hkind => by simp [defined kind hkind]
    rw [all] at only
    exact several (congrArg List.length only)
  cases verdict <;> cases verdict'
  · rfl
  · exact (differ h' h).elim
  · exact (differ h h').elim
  · rfl

namespace Court

variable {α : Type} {c : Court} {space : Space} {text : String}

theorem claimants_ok (classify : OpKind → Option (Bool × α))
    (sorts : ∀ kind stub a, classify kind = some (stub, a) → kind.isStub = stub)
    {sites : List Site} {start found : Claimants α}
    (h : sites.foldlM (fun found site => do
      let op ← c.op site
      match classify op.kind with
      | some (true, a) => return { found with stubs := found.stubs ++ [(op.span, a)] }
      | some (false, a) => return { found with definitions := found.definitions ++ [(op.span, a)] }
      | none => .broken s!"`{text}` collected as a {space.word} but is not one") start =
        .ok found) :
    ∃ (ops : List Op) (stubs definitions : List (Span × α)),
      List.Forall₂ (fun site op => c.op site = .ok op) sites ops ∧
      found = ⟨start.stubs ++ stubs, start.definitions ++ definitions⟩ ∧
      List.Forall₂ (fun op (s : Span × α) => classify op.kind = some (true, s.2))
        (ops.filter (·.kind.isStub)) stubs ∧
      List.Forall₂ (fun op (s : Span × α) => classify op.kind = some (false, s.2))
        (ops.filter (!·.kind.isStub)) definitions := by
  induction sites generalizing start with
  | nil =>
    cases h
    exact ⟨[], [], [], .nil, by simp, .nil, .nil⟩
  | cons site rest ih =>
    rw [List.foldlM_cons, bind_eq_ok] at h
    obtain ⟨next, hnext, h⟩ := h
    obtain ⟨op, hop, hnext⟩ := bind_eq_ok.mp hnext
    obtain ⟨ops, stubs, definitions, hops, rfl, hstubs, hdefinitions⟩ := ih h
    split at hnext
    · next a ha =>
      cases hnext
      have stub := sorts _ _ _ ha
      refine ⟨op :: ops, (op.span, a) :: stubs, definitions, .cons hop hops, by simp, ?_, ?_⟩
      · rw [List.filter_cons_of_pos (by simp [stub])]
        exact .cons ha hstubs
      · rw [List.filter_cons_of_neg (by simp [stub])]
        exact hdefinitions
    · next a ha =>
      cases hnext
      have definition := sorts _ _ _ ha
      refine ⟨op :: ops, stubs, (op.span, a) :: definitions, .cons hop hops, by simp, ?_, ?_⟩
      · rw [List.filter_cons_of_neg (by simp [definition])]
        exact hstubs
      · rw [List.filter_cons_of_pos (by simp [definition])]
        exact .cons ha hdefinitions
    · cases hnext

theorem judgeStubs_ok {object : α → α → Checked (Option Objection)} {definition : Span × α}
    {stubs : List (Span × α)} (h : c.judgeStubs space text object definition stubs = .ok ()) :
    ∀ stub ∈ stubs, object definition.2 stub.2 = .ok none := by
  induction stubs with
  | nil => exact fun _ hstub => absurd hstub List.not_mem_nil
  | cons stub rest ih =>
    obtain ⟨span, a⟩ := stub
    obtain ⟨objection, hobjection, h⟩ := bind_eq_ok.mp h
    cases objection with
    | none => exact List.forall_mem_cons.mpr ⟨Linking.ofChecked_eq_ok.mp hobjection, ih h⟩
    | some objection =>
      cases objection with
      | differs detail => cases h
      | uncovered field =>
        obtain ⟨_, -, h⟩ := bind_eq_ok.mp h
        cases h

theorem settle_ok {object : α → α → Checked (Option Objection)} {found : Claimants α}
    {verdict : Bool} (h : c.settle space text object found = .ok verdict) :
    verdict = true ∧ found.stubs = [] ∧ found.definitions.length ≠ 1 ∨
      verdict = false ∧ ∃ definition, found.definitions = [definition] ∧
        ∀ stub ∈ found.stubs, object definition.2 stub.2 = .ok none := by
  obtain ⟨stubs, definitions⟩ := found
  unfold settle at h
  split at h
  · next none_ =>
    have empty : stubs = [] := List.isEmpty_iff.mp none_
    subst empty
    cases h
    by_cases single : definitions.length = 1
    · obtain ⟨definition, rfl⟩ := List.length_eq_one_iff.mp single
      exact .inr ⟨rfl, definition, rfl, fun _ hstub => absurd hstub List.not_mem_nil⟩
    · exact .inl ⟨by simpa using single, rfl, single⟩
  · split at h
    · next definition heq =>
      obtain ⟨_, hstubs, h⟩ := bind_eq_ok.mp h
      cases h
      exact .inr ⟨rfl, definition, heq, judgeStubs_ok hstubs⟩
    · cases h

theorem settled_of_settle (classify : OpKind → Option (Bool × α))
    {object : α → α → Checked (Option Objection)}
    (agrees : ∀ definition stub a b, classify definition = some (false, a) →
      classify stub = some (true, b) → object a b = .ok none → definition.Agrees stub)
    {ops : List Op} {found : Claimants α} {verdict : Bool}
    (hstubs : List.Forall₂ (fun op (s : Span × α) => classify op.kind = some (true, s.2))
      (ops.filter (·.kind.isStub)) found.stubs)
    (hdefinitions : List.Forall₂ (fun op (s : Span × α) => classify op.kind = some (false, s.2))
      (ops.filter (!·.kind.isStub)) found.definitions)
    (h : c.settle space text object found = .ok verdict) : Settled (ops.map (·.kind)) verdict := by
  have definitions : (ops.map (·.kind)).filter (!·.isStub) =
      (ops.filter (!·.kind.isStub)).map (·.kind) := List.filter_map
  rcases settle_ok h with ⟨rfl, nothing, several⟩ | ⟨rfl, definition, only, unobjected⟩
  · have defined : ∀ kind ∈ ops.map (·.kind), kind.isStub = false := by
      rw [nothing, List.forall₂_nil_right_iff, List.filter_eq_nil_iff] at hstubs
      rintro kind hkind
      obtain ⟨op, hop, rfl⟩ := List.mem_map.mp hkind
      simpa using hstubs op hop
    have all : (ops.map (·.kind)).filter (!·.isStub) = ops.map (·.kind) :=
      List.filter_eq_self.mpr fun kind hkind => by simp [defined kind hkind]
    refine .apart defined fun single => several ?_
    rw [← hdefinitions.length_eq, ← List.length_map (f := (·.kind)), ← definitions, all, single]
  · rw [only] at hdefinitions
    obtain ⟨op, hop⟩ : ∃ op, ops.filter (!·.kind.isStub) = [op] :=
      List.length_eq_one_iff.mp hdefinitions.length_eq
    rw [hop] at hdefinitions
    obtain ⟨hclassify, -⟩ := List.forall₂_cons.mp hdefinitions
    refine .together op.kind (by rw [definitions, hop]; rfl) fun stub hmem hstub => ?_
    obtain ⟨op', hop', rfl⟩ := List.mem_map.mp hmem
    obtain ⟨s, hs, hclassify'⟩ :=
      forall₂_exists_right hstubs (List.mem_filter.mpr ⟨hop', hstub⟩)
    exact agrees _ _ _ _ hclassify hclassify' (unobjected s hs)

def judge (c : Court) : Space → Name → List Site → Linking Bool
  | .classes => c.judgeClass
  | .modules => c.judgeModule

theorem judgeModule_ok {name : Name} {sites : List Site} {verdict : Bool}
    (h : c.judgeModule name sites = .ok verdict) :
    ∃ ops, List.Forall₂ (fun site op => c.op site = .ok op) sites ops ∧
      Settled (ops.map (·.kind)) verdict := by
  obtain ⟨text, -, h⟩ := bind_eq_ok.mp h
  obtain ⟨found, hfound, h⟩ := bind_eq_ok.mp h
  obtain ⟨ops, stubs, definitions, hops, rfl, hstubs, hdefinitions⟩ :=
    claimants_ok classifyModule
      (by intro kind stub a h; cases kind <;> cases h <;> rfl) hfound
  refine ⟨ops, hops, ?_⟩
  have hsettle : ∃ object : Visibility × List Port → Visibility × List Port →
      Checked (Option Objection),
      (object = fun definition stub => c.objectToPorts definition.2 stub.2) ∧
      c.settle .modules text object ⟨stubs, definitions⟩ = .ok verdict := by
    refine ⟨_, rfl, ?_⟩
    simp only [List.nil_append] at h
    split at h
    · split at h
      · cases h
      · exact h
    · exact h
  obtain ⟨object, hobject, hsettle⟩ := hsettle
  refine settled_of_settle classifyModule ?_ hstubs hdefinitions hsettle
  intro definition stub a b hdefinition hstub unobjected
  cases definition <;> cases hdefinition
  cases stub <;> cases hstub
  rw [hobject] at unobjected
  simp only [objectToPorts] at unobjected
  split at unobjected
  · next same => exact same
  · obtain ⟨detail, -, unobjected⟩ := bind_eq_ok.mp unobjected
    cases unobjected

theorem judgeClass_ok {name : Name} {sites : List Site} {verdict : Bool}
    (h : c.judgeClass name sites = .ok verdict) :
    ∃ ops, List.Forall₂ (fun site op => c.op site = .ok op) sites ops ∧
      Settled (ops.map (·.kind)) verdict := by
  obtain ⟨text, -, h⟩ := bind_eq_ok.mp h
  obtain ⟨found, hfound, h⟩ := bind_eq_ok.mp h
  obtain ⟨ops, stubs, definitions, hops, rfl, hstubs, hdefinitions⟩ :=
    claimants_ok classifyClass
      (by intro kind stub a h; cases kind <;> cases h <;> rfl) hfound
  refine ⟨ops, hops, settled_of_settle classifyClass ?_ hstubs hdefinitions h⟩
  intro definition stub a b hdefinition hstub unobjected
  cases definition <;> cases hdefinition
  cases stub <;> cases hstub
  obtain ⟨difference, hsearch, unobjected⟩ := bind_eq_ok.mp unobjected
  obtain rfl := ClassDifference.search_ok hsearch
  split at unobjected
  · next same => exact same
  · cases unobjected
  · cases unobjected
  · obtain ⟨l, -, unobjected⟩ := bind_eq_ok.mp unobjected
    obtain ⟨r, -, unobjected⟩ := bind_eq_ok.mp unobjected
    cases unobjected
  · obtain ⟨name, -, unobjected⟩ := bind_eq_ok.mp unobjected
    cases unobjected
  · obtain ⟨name, -, unobjected⟩ := bind_eq_ok.mp unobjected
    obtain ⟨l, -, unobjected⟩ := bind_eq_ok.mp unobjected
    obtain ⟨r, -, unobjected⟩ := bind_eq_ok.mp unobjected
    cases unobjected

theorem judge_ok {space : Space} {name : Name} {sites : List Site} {verdict : Bool}
    (h : c.judge space name sites = .ok verdict) :
    ∃ ops, List.Forall₂ (fun site op => c.op site = .ok op) sites ops ∧
      Settled (ops.map (·.kind)) verdict := by
  cases space with
  | classes => exact judgeClass_ok h
  | modules => exact judgeModule_ok h

end Court

end Linkage
