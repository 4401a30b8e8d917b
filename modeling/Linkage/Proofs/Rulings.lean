import Linkage.Proofs.Compatibility
/-!
The rule by which a name is judged, told on its stubs and its definitions, in the order in which
they occur among each other. The diagnostic of a name that is turned down is about one of them, and
labels all others that have a part in it.
-/
namespace Linkage

def Report.about (number : Nat) (message : String) (place : Span) (others : List (Span × String)) :
    Diagnostic :=
  ⟨.error, code number, message, place, others.map fun (span, label) => ⟨span, label, .secondary⟩,
    []⟩

def Contested (definitions : List Op) : Prop :=
  1 < definitions.length ∧ ∃ d ∈ definitions, d.kind.isExported = true

namespace Court

/-- To compare a stub with a definition the court has to read a name that lacks a text, or to show a
type that cannot be written. -/
inductive Stops (c : Court) : OpKind → OpKind → Fault → Prop
  | portName {visibility : Visibility} {definition stub : ModuleHead} {index : Nat}
      {l r name : Name} {fault : Fault}
      (differ : PortDifference.find definition.ports stub.ports = some (.name index l r))
      (shown : name ∈ [l, r]) (lacks : c.lexicon.Lacks name fault) :
    Stops c (.moduleDef visibility definition) (.moduleStub stub) fault
  | portType {visibility : Visibility} {definition stub : ModuleHead} {index : Nat}
      {l r id : TyId} {fault : Fault}
      (differ : PortDifference.find definition.ports stub.ports = some (.ty index l r))
      (shown : id ∈ [l, r]) (obstacle : c.types.Obstacle c.lexicon id fault) :
    Stops c (.moduleDef visibility definition) (.moduleStub stub) fault
  | ofClass {definition stub : ClassHead} {fault : Fault}
      (unreadable : c.Unreadable definition stub fault) :
    Stops c (.classDef definition) (.classStub stub) fault

def Passes (c : Court) (definition stub : OpKind) : Prop :=
  definition.Agrees stub ∧ ∀ fault, ¬ c.Stops definition stub fault

/-- What becomes of a name with these stubs and these definitions. -/
inductive LinkingRule (c : Court) (space : Space) (text : String) :
    List Op → List Op → Linking Bool → Prop
  | ambiguous {stubs others : List Op} {first : Op} (contested : Contested (first :: others)) :
    LinkingRule c space text stubs (first :: others) (.error (.rejected ⟨.ambiguous text,
      [Report.about 300
        s!"module `{text}` is declared as a public module but there are multiple public modules defined with the same name"
        first.span
        (others.map fun d => (d.span, if d.kind.isExported
          then s!"module `{text}` is declared here as public"
          else s!"module `{text}` is defined here"))]⟩))
  | unresolved {stubs definitions : List Op} {first : Op} (count : definitions.length ≠ 1)
      (uncontested : ¬ Contested definitions) :
    LinkingRule c space text (first :: stubs) definitions (.error (.rejected
      ⟨.unresolved space text definitions.length,
        [Report.about (if definitions = [] then 301 else 302)
          (s!"{space.word} `{text}` is declared as an external {space.word} but " ++
            if definitions = [] then "there is no definition"
            else "there are multiple definitions")
          first.span
          ((stubs.map fun s => (s.span, s!"{space.word} `{text}` is declared here as well")) ++
            definitions.map fun d => (d.span, s!"{space.word} `{text}` is defined here"))]⟩))
  | mismatch {before after : List Op} {stub definition : Op} {detail : String}
      (passed : ∀ s ∈ before, c.Passes definition.kind s.kind)
      (differs : ¬ definition.kind.Agrees stub.kind)
      (shown : c.object definition.kind stub.kind = .ok (some (.differs detail))) :
    LinkingRule c space text (before ++ stub :: after) [definition] (.error (.rejected
      ⟨.mismatch space text, [Report.about 303
        s!"failed to link {space.word} `{text}` since declaration doesn't match the definition: {detail}"
        stub.span [(definition.span, "definition is here")]]⟩))
  | uncovered {before after : List Op} {stub definition : Op} {name : Name} {field : String}
      (passed : ∀ s ∈ before, c.Passes definition.kind s.kind)
      (differs : ¬ definition.kind.Agrees stub.kind)
      (shown : c.object definition.kind stub.kind = .ok (some (.uncovered name)))
      (read : c.lexicon.text name = .ok field) :
    LinkingRule c space text (before ++ stub :: after) [definition] (.error (.rejected
      ⟨.uncovered text field, [Report.about 304
        s!"failed to link class `{text}` since declaration doesn't match the definition: definition has a field `{field}` but not found in this declaration"
        stub.span [(definition.span, "definition is here")]]⟩))
  /-- The comparison comes to something that cannot be read or shown. -/
  | stopped {before after : List Op} {stub definition : Op} {fault : Fault}
      (passed : ∀ s ∈ before, c.Passes definition.kind s.kind)
      (stops : c.Stops definition.kind stub.kind fault) :
    LinkingRule c space text (before ++ stub :: after) [definition] (.error (.fault fault))
  /-- The field that is left out has a name that lacks a text. -/
  | nameless {before after : List Op} {stub definition : Op} {name : Name} {fault : Fault}
      (passed : ∀ s ∈ before, c.Passes definition.kind s.kind)
      (differs : ¬ definition.kind.Agrees stub.kind)
      (shown : c.object definition.kind stub.kind = .ok (some (.uncovered name)))
      (lacks : c.lexicon.Lacks name fault) :
    LinkingRule c space text (before ++ stub :: after) [definition] (.error (.fault fault))
  | apart {definitions : List Op} (several : 1 < definitions.length)
      (uncontested : ¬ Contested definitions) :
    LinkingRule c space text [] definitions (.ok true)
  | together {stubs : List Op} {definition : Op}
      (passed : ∀ s ∈ stubs, c.Passes definition.kind s.kind) :
    LinkingRule c space text stubs [definition] (.ok false)

end Court

/-- Two computations that end alike: with the same answer or rejection, or both on a fault. -/
inductive Linking.Alike {α : Type} : Linking α → Linking α → Prop
  | same (x : Linking α) : Alike x x
  | stopped (fault fault' : Fault) : Alike (.error (.fault fault)) (.error (.fault fault'))

theorem Contested.not_singleton {definition : Op} : ¬ Contested [definition] :=
  fun contested => absurd contested.1 (Nat.lt_irrefl 1)

namespace Report

theorem foldl_withSecondary {α : Type} (entries : List α) (label : α → Span × String)
    (d : Diagnostic) :
    entries.foldl (fun d e => d.withSecondary (label e).1 (label e).2) d =
      { d with labels := d.labels ++ entries.map fun e =>
          ⟨(label e).1, (label e).2, .secondary⟩ } := by
  induction entries generalizing d with
  | nil => simp
  | cons e rest ih =>
    rw [List.foldl_cons, ih]
    simp [Diagnostic.withSecondary]

theorem ambiguous_eq (name : String) (first : Span) (others : List (Span × Bool)) :
    ambiguous name first others = about 300
      s!"module `{name}` is declared as a public module but there are multiple public modules defined with the same name"
      first (others.map fun o => (o.1, if o.2 then s!"module `{name}` is declared here as public"
        else s!"module `{name}` is defined here")) := by
  unfold ambiguous about
  refine (foldl_withSecondary others (fun o => (o.1, if o.2 then _ else _)) _).trans ?_
  simp [Diagnostic.error, Function.comp_def]

theorem unresolved_eq (space : Space) (name : String) (first : Span)
    (stubs definitions : List Span) : unresolved space name (first :: stubs) definitions =
      about (if definitions = [] then 301 else 302)
        (s!"{space.word} `{name}` is declared as an external {space.word} but " ++
        if definitions = [] then "there is no definition" else "there are multiple definitions")
        first ((stubs.map fun s => (s, s!"{space.word} `{name}` is declared here as well")) ++
          definitions.map fun d => (d, s!"{space.word} `{name}` is defined here")) := by
  cases definitions with
  | nil =>
    refine (foldl_withSecondary stubs (fun s => (s, _)) _).trans ?_
    simp [about, Diagnostic.error, Function.comp_def, toString]
  | cons d rest =>
    refine (foldl_withSecondary (d :: rest) (fun d => (d, _)) _).trans ?_
    rw [List.drop_one, List.tail_cons, foldl_withSecondary stubs (fun s => (s, _))]
    simp [about, Diagnostic.error, Function.comp_def, toString]

end Report

namespace OpKind

def head : OpKind → ClassHead
  | .classDef head | .classStub head => head
  | _ => ⟨⟨0⟩, [], []⟩

def exposure : OpKind → Visibility × List Port
  | .moduleDef visibility head => (visibility, head.ports)
  | .moduleStub head => (.local, head.ports)
  | _ => (.local, [])

inductive Faces : OpKind → Space → OpKind → Prop
  | classes (definition stub : ClassHead) : Faces (.classDef definition) .classes (.classStub stub)
  | modules (visibility : Visibility) (definition stub : ModuleHead) :
    Faces (.moduleDef visibility definition) .modules (.moduleStub stub)

theorem faces_of_declare {definition stub : OpKind} {space : Space}
    (real : definition.isStub = false) (isStub : stub.isStub = true)
    (declares : definition.declaration?.map (·.1) = some space)
    (declares' : stub.declaration?.map (·.1) = some space) : definition.Faces space stub := by
  cases stub with
  | moduleStub stub =>
    cases declares'
    cases definition with
    | moduleDef visibility definition => exact .modules visibility definition stub
    | moduleStub head => cases real
    | _ => cases declares
  | classStub stub =>
    cases declares'
    cases definition with
    | classDef definition => exact .classes definition stub
    | classStub head => cases real
    | _ => cases declares
  | _ => cases isStub

theorem isExported_of_classes {kind : OpKind} (h : kind.declaration?.map (·.1) = some .classes) :
    kind.isExported = false := by
  cases kind <;> first | rfl | cases h

theorem exposure_eq {kind : OpKind} (h : kind.declaration?.map (·.1) = some .modules)
    (real : kind.isStub = false) : (kind.exposure.1 == .exported) = kind.isExported := by
  cases kind with
  | moduleDef visibility head => cases visibility <;> rfl
  | moduleStub head => cases real
  | _ => cases h

end OpKind

namespace Court

variable {c : Court} {space : Space} {text : String} {α : Type}

theorem classifyClass_eq {kind : OpKind} (h : kind.declaration?.map (·.1) = some .classes) :
    classifyClass kind = some (kind.isStub, kind.head) := by
  cases kind <;> first | rfl | cases h

theorem classifyModule_eq {kind : OpKind} (h : kind.declaration?.map (·.1) = some .modules) :
    classifyModule kind = some (kind.isStub, kind.exposure) := by
  cases kind <;> first | rfl | cases h

theorem hear_eq {classify : OpKind → Option (Bool × α)} {content : OpKind → α} {ops : List Op}
    (known : ∀ op ∈ ops, classify op.kind = some (op.kind.isStub, content op.kind)) :
    hear classify (ops.map (·.toNode)) =
      ⟨(ops.filter (·.kind.isStub)).map fun op => (op.span, content op.kind),
        (ops.filter (!·.kind.isStub)).map fun op => (op.span, content op.kind)⟩ := by
  induction ops with
  | nil => rfl
  | cons op rest ih =>
    obtain ⟨head, others⟩ := List.forall_mem_cons.mp known
    have heard := ih others
    simp only [hear, Claimants.mk.injEq] at heard ⊢
    cases stub : op.kind.isStub with
    | true => simp [head, stub, heard.1, heard.2]
    | false => simp [head, stub, heard.1, heard.2]

theorem objectToPorts_cases (c : Court) (visibility : Visibility) (definition stub : ModuleHead) :
    (∃ fault, c.objectToPorts definition.ports stub.ports = .error fault ∧
        c.Stops (.moduleDef visibility definition) (.moduleStub stub) fault) ∨
      (∀ fault, ¬ c.Stops (.moduleDef visibility definition) (.moduleStub stub) fault) ∧
        ∃ answer, c.objectToPorts definition.ports stub.ports = .ok answer ∧
          (answer = none ↔ PortDifference.find definition.ports stub.ports = none) := by
  unfold objectToPorts
  cases hfind : PortDifference.find definition.ports stub.ports with
  | none =>
    refine .inr ⟨?_, none, rfl, by simp⟩
    rintro fault (⟨differ, -, -⟩ | ⟨differ, -, -⟩ | -)
    · cases hfind.symm.trans differ
    · cases hfind.symm.trans differ
  | some difference =>
    have plain : (∀ index l r, difference ≠ .name index l r) →
        (∀ index l r, difference ≠ .ty index l r) →
        ∀ fault, ¬ c.Stops (.moduleDef visibility definition) (.moduleStub stub) fault := by
      rintro unnamed untyped fault (⟨differ, -, -⟩ | ⟨differ, -, -⟩ | -)
      · exact unnamed _ _ _ (Option.some.inj (hfind.symm.trans differ))
      · exact untyped _ _ _ (Option.some.inj (hfind.symm.trans differ))
    cases difference with
    | count l r => exact .inr ⟨plain (by simp) (by simp), _, rfl, by simp⟩
    | direction index l r => exact .inr ⟨plain (by simp) (by simp), _, rfl, by simp⟩
    | name index l r =>
      rcases writes_both c.lexicon.text_reads l r
        (fun l r => s!"{index}-th port name is not equal, `{l}` vs `{r}`") rfl with
        ⟨fault, stops, name, shown, lacks⟩ | ⟨free, lt, rt, answer⟩
      · exact .inl ⟨fault, by simp only [PortDifference.describe, stops]; rfl,
          .portName hfind shown lacks⟩
      · refine .inr ⟨?_, _, by simp only [PortDifference.describe, answer]; rfl, by simp⟩
        rintro fault (⟨differ, shown, lacks⟩ | ⟨differ, -, -⟩ | -)
        · cases hfind.symm.trans differ
          exact free _ shown fault lacks
        · cases hfind.symm.trans differ
    | ty index l r =>
      rcases writes_both (c.types.display_reads c.lexicon) l r
        (fun l r => s!"{index}-th port type is not equal, {l} vs {r}") rfl with
        ⟨fault, stops, id, shown, obstacle⟩ | ⟨free, lt, rt, answer⟩
      · exact .inl ⟨fault, by simp only [PortDifference.describe, stops]; rfl,
          .portType hfind shown obstacle⟩
      · refine .inr ⟨?_, _, by simp only [PortDifference.describe, answer]; rfl, by simp⟩
        rintro fault (⟨differ, -, -⟩ | ⟨differ, shown, obstacle⟩ | -)
        · cases hfind.symm.trans differ
        · cases hfind.symm.trans differ
          exact free _ shown fault obstacle

theorem object_cases {definition stub : OpKind} (h : definition.Faces space stub) :
    (∃ fault, c.object definition stub = .error fault ∧ c.Stops definition stub fault) ∨
      (∀ fault, ¬ c.Stops definition stub fault) ∧
        ∃ answer, c.object definition stub = .ok answer ∧
          (answer = none ↔ definition.Agrees stub) := by
  cases h with
  | modules visibility definition stub => exact c.objectToPorts_cases visibility definition stub
  | classes definition stub =>
    rcases c.objectToClass_cases definition stub with
      ⟨fault, answer, unreadable⟩ | ⟨readable, answer, heq, tells⟩
    · exact .inl ⟨fault, answer, .ofClass unreadable⟩
    · refine .inr ⟨?_, answer, heq, ?_⟩
      · rintro fault (- | - | unreadable)
        exact readable fault unreadable
      · rw [OpKind.Agrees]
        generalize ClassDifference.find definition stub = found at tells ⊢
        cases tells <;> simp

theorem object_eq_none_iff {definition stub : OpKind} (h : definition.Faces space stub) :
    c.object definition stub = .ok none ↔ c.Passes definition stub := by
  rcases object_cases (c := c) h with ⟨fault, heq, stops⟩ | ⟨free, answer, heq, agrees⟩
  · rw [heq]
    exact iff_of_false nofun fun passes => passes.2 fault stops
  · rw [heq, Passes, and_iff_left free, ← agrees, Except.ok.injEq]

theorem exists_fault_of_stops {definition stub : OpKind} {fault : Fault}
    (h : definition.Faces space stub) (stops : c.Stops definition stub fault) :
    ∃ fault, c.object definition stub = .error fault ∧ c.Stops definition stub fault := by
  rcases object_cases (c := c) h with found | ⟨free, -⟩
  · exact found
  · exact absurd stops (free fault)

theorem objectToClass_head {definition stub : OpKind} (h : definition.Faces .classes stub) :
    c.objectToClass definition.head stub.head = c.object definition stub := by
  cases h
  rfl

theorem objectToPorts_exposure {definition stub : OpKind} (h : definition.Faces .modules stub) :
    c.objectToPorts definition.exposure.2 stub.exposure.2 = c.object definition stub := by
  cases h
  rfl

theorem judgeStubs_append {object : α → α → Checked (Option Objection)} {definition : Span × α}
    {before after : List (Span × α)} (agree : ∀ s ∈ before, object definition.2 s.2 = .ok none) :
    c.judgeStubs space text object definition (before ++ after) =
      c.judgeStubs space text object definition after := by
  induction before with
  | nil => rfl
  | cons s rest ih =>
    obtain ⟨head, others⟩ := List.forall_mem_cons.mp agree
    simp only [List.cons_append, judgeStubs, head]
    exact ih others

theorem settle_single (object : α → α → Checked (Option Objection)) (stubs : List (Span × α))
    (definition : Span × α) : c.settle space text object ⟨stubs, [definition]⟩ =
      c.judgeStubs space text object definition stubs >>= fun _ => .ok false := by
  unfold settle
  cases stubs with
  | nil => rfl
  | cons s rest => rfl

theorem settle_several (object : α → α → Checked (Option Objection)) (first : Span × α)
    (stubs : List (Span × α)) {definitions : List (Span × α)} (count : definitions.length ≠ 1) :
    c.settle space text object ⟨first :: stubs, definitions⟩ =
      .error (.rejected ⟨.unresolved space text definitions.length, [Report.unresolved space text
        (first.1 :: stubs.map (·.1)) (definitions.map (·.1))]⟩) := by
  unfold settle
  match definitions, count with
  | [], _ => rfl
  | [_], count => exact absurd rfl count
  | _ :: _ :: _, _ => rfl

def told (stubs definitions : List Op) : Claimants OpKind :=
  ⟨stubs.map fun op => (op.span, op.kind), definitions.map fun op => (op.span, op.kind)⟩

section

variable {stubs definitions : List Op} {outcome : Linking Bool}

theorem judgeStubs_told {content : OpKind → α} {object : α → α → Checked (Option Objection)}
    {definition : Op} (objects : ∀ s ∈ stubs,
      object (content definition.kind) (content s.kind) = c.object definition.kind s.kind) :
    c.judgeStubs space text object (definition.span, content definition.kind)
        (stubs.map fun op => (op.span, content op.kind)) =
      c.judgeStubs space text c.object (definition.span, definition.kind)
        (stubs.map fun op => (op.span, op.kind)) := by
  induction stubs with
  | nil => rfl
  | cons s rest ih =>
    obtain ⟨head, others⟩ := List.forall_mem_cons.mp objects
    simp only [List.map_cons, judgeStubs, head, ih others]

theorem settle_told {content : OpKind → α} {object : α → α → Checked (Option Objection)}
    (objects : ∀ d ∈ definitions, ∀ s ∈ stubs,
      object (content d.kind) (content s.kind) = c.object d.kind s.kind) :
    c.settle space text object ⟨stubs.map fun op => (op.span, content op.kind),
        definitions.map fun op => (op.span, content op.kind)⟩ =
      c.settle space text c.object (told stubs definitions) := by
  unfold told
  by_cases single : definitions.length = 1
  · obtain ⟨definition, rfl⟩ := List.length_eq_one_iff.mp single
    rw [List.map_singleton, List.map_singleton, settle_single, settle_single,
      judgeStubs_told (objects definition List.mem_cons_self)]
  · cases stubs with
    | nil => simp [settle]
    | cons first rest =>
      rw [List.map_cons, List.map_cons, settle_several _ _ _ (by simpa using single),
        settle_several _ _ _ (by simpa using single)]
      simp only [List.length_map, List.map_map, Function.comp_def]

/-- Stubs that the court has nothing to object to make no difference to the rest. -/
theorem settle_at {before after : List Op} {stub definition : Op}
    (faces : ∀ s ∈ before ++ stub :: after, definition.kind.Faces space s.kind)
    (passed : ∀ s ∈ before, c.Passes definition.kind s.kind) :
    c.settle space text c.object (told (before ++ stub :: after) [definition]) =
      c.judgeStubs space text c.object (definition.span, definition.kind)
        ((stub.span, stub.kind) :: after.map fun op => (op.span, op.kind)) >>=
          fun _ => .ok false := by
  have unobjected : ∀ s ∈ before.map fun op => (op.span, op.kind),
      c.object definition.kind s.2 = .ok none := by
    intro s hs
    obtain ⟨op, hop, rfl⟩ := List.mem_map.mp hs
    exact (object_eq_none_iff (faces op (List.mem_append_left _ hop))).mpr (passed op hop)
  rw [told, List.map_singleton, settle_single, List.map_append, List.map_cons,
    judgeStubs_append unobjected]

theorem settle_of_passed {definition : Op}
    (faces : ∀ s ∈ stubs, definition.kind.Faces space s.kind)
    (passed : ∀ s ∈ stubs, c.Passes definition.kind s.kind) :
    c.settle space text c.object (told stubs [definition]) = .ok false := by
  have unobjected : ∀ s ∈ stubs.map fun op => (op.span, op.kind),
      c.object definition.kind s.2 = .ok none := by
    intro s hs
    obtain ⟨op, hop, rfl⟩ := List.mem_map.mp hs
    exact (object_eq_none_iff (faces op hop)).mpr (passed op hop)
  rw [told, List.map_singleton, settle_single, judgeStubs_of_agree unobjected]
  rfl

theorem settle_unresolved {first : Op} (count : definitions.length ≠ 1) :
    c.settle space text c.object (told (first :: stubs) definitions) =
      .error (.rejected ⟨.unresolved space text definitions.length,
        [Report.about (if definitions = [] then 301 else 302)
          (s!"{space.word} `{text}` is declared as an external {space.word} but " ++
            if definitions = [] then "there is no definition"
            else "there are multiple definitions")
          first.span
          ((stubs.map fun s => (s.span, s!"{space.word} `{text}` is declared here as well")) ++
            definitions.map fun d => (d.span, s!"{space.word} `{text}` is defined here"))]⟩) := by
  have report := Report.unresolved_eq space text first.span (stubs.map (·.span))
    (definitions.map (·.span))
  simp only [List.map_map, List.map_eq_nil_iff] at report
  rw [told, List.map_cons, settle_several _ _ _ (by simpa using count), List.length_map,
    List.map_map, List.map_map]
  simp only [Function.comp_def] at report ⊢
  rw [report]

theorem settle_apart (several : 1 < definitions.length) :
    c.settle space text c.object (told [] definitions) = .ok true := by
  have count : definitions.length ≠ 1 := by omega
  simp [settle, told, count]

theorem LinkingRule.alike_settle (rule : c.LinkingRule space text stubs definitions outcome)
    (uncontested : ¬ Contested definitions)
    (faces : ∀ d ∈ definitions, ∀ s ∈ stubs, d.kind.Faces space s.kind) :
    Linking.Alike (c.settle space text c.object (told stubs definitions)) outcome := by
  cases rule with
  | ambiguous contested => exact absurd contested uncontested
  | unresolved count _ =>
    rw [settle_unresolved count]
    exact .same _
  | mismatch passed _ shown =>
    rw [settle_at (faces _ List.mem_cons_self) passed, judgeStubs, shown]
    exact .same _
  | uncovered passed _ shown read =>
    rw [settle_at (faces _ List.mem_cons_self) passed, judgeStubs, shown]
    simp only [Linking.ofChecked, Except.mapError, ok_bind, read]
    exact .same _
  | stopped passed stops =>
    have facing := faces _ List.mem_cons_self _ (List.mem_append_right _ List.mem_cons_self)
    obtain ⟨fault, answer, -⟩ := exists_fault_of_stops facing stops
    rw [settle_at (faces _ List.mem_cons_self) passed, judgeStubs, answer]
    exact .stopped _ _
  | @nameless before after stub definition name fault passed _ shown lacks =>
    have reads := c.lexicon.text_reads name
    rw [settle_at (faces _ List.mem_cons_self) passed, judgeStubs, shown]
    cases read : c.lexicon.text name with
    | ok field =>
      rw [read] at reads
      exact absurd lacks (reads fault)
    | error fault =>
      simp only [Linking.ofChecked, Except.mapError, ok_bind, read]
      exact .stopped _ _
  | apart several _ =>
    rw [settle_apart several]
    exact .same _
  | together passed =>
    rw [settle_of_passed (faces _ List.mem_cons_self) passed]
    exact .same _

/-- What the claimants of a name with one definition come to follows the rule. -/
theorem linkingRule_settle_single {definition : Op}
    (faces : ∀ s ∈ stubs, definition.kind.Faces space s.kind) :
    c.LinkingRule space text stubs [definition]
      (c.settle space text c.object (told stubs [definition])) := by
  by_cases passed : ∀ s ∈ stubs, c.Passes definition.kind s.kind
  · rw [settle_of_passed faces passed]
    exact .together passed
  · push Not at passed
    obtain ⟨before, stub, after, rfl, passed, fails⟩ := exists_first passed
    have facing := faces stub (List.mem_append_right before List.mem_cons_self)
    rw [settle_at faces passed, judgeStubs]
    rcases object_cases (c := c) facing with ⟨fault, answer, stops⟩ | ⟨free, answer, heq, agrees⟩
    · rw [answer]
      exact .stopped passed stops
    · have differs : ¬ definition.kind.Agrees stub.kind := fun same => fails ⟨same, free⟩
      rw [heq]
      rcases answer with _ | detail | name
      · exact absurd (agrees.mp rfl) differs
      · exact .mismatch passed differs heq
      · have reads := c.lexicon.text_reads name
        cases read : c.lexicon.text name with
        | ok field =>
          simp only [Linking.ofChecked, Except.mapError, ok_bind, read]
          exact .uncovered passed differs heq read
        | error fault =>
          rw [read] at reads
          simp only [Linking.ofChecked, Except.mapError, ok_bind, read]
          exact .nameless passed differs heq reads

theorem linkingRule_settle (uncontested : ¬ Contested definitions)
    (faces : ∀ d ∈ definitions, ∀ s ∈ stubs, d.kind.Faces space s.kind)
    (declared : stubs ++ definitions ≠ []) :
    c.LinkingRule space text stubs definitions
      (c.settle space text c.object (told stubs definitions)) := by
  by_cases single : definitions.length = 1
  · obtain ⟨definition, rfl⟩ := List.length_eq_one_iff.mp single
    exact linkingRule_settle_single (faces definition List.mem_cons_self)
  · cases stubs with
    | cons first rest =>
      rw [settle_unresolved single]
      exact .unresolved single uncontested
    | nil =>
      have some_ : 0 < definitions.length := List.length_pos_iff.mpr declared
      have several : 1 < definitions.length := by omega
      rw [settle_apart several]
      exact .apart several uncontested

end

/-- Several definitions of which one is exported are ambiguous, whatever else declares the name. -/
theorem moduleRuling_of_exported {stubs others : List (Span × Visibility × List Port)}
    {first : Span × Visibility × List Port} (several : others ≠ [])
    (exported : (first :: others).any (·.2.1 == .exported) = true) :
    c.moduleRuling text ⟨stubs, first :: others⟩ =
      .error (.rejected ⟨.ambiguous text, [Report.ambiguous text first.1
        (others.map fun d => (d.1, d.2.1 == .exported))]⟩) := by
  match others, several with
  | [], several => exact absurd rfl several
  | second :: rest, _ =>
    simp only [moduleRuling, exported, if_true]
    rfl

theorem moduleRuling_of_local {found : Claimants (Visibility × List Port)}
    (h : found.definitions.length ≤ 1 ∨ found.definitions.any (·.2.1 == .exported) = false) :
    c.moduleRuling text found = c.settle .modules text
      (fun definition stub => c.objectToPorts definition.2 stub.2) found := by
  obtain ⟨stubs, definitions⟩ := found
  match definitions, h with
  | [], _ => rfl
  | [_], _ => rfl
  | first :: second :: rest, .inl few => simp at few
  | first :: second :: rest, .inr unexported =>
    simp only [moduleRuling, unexported]
    rfl

theorem any_exported_iff {definitions : List Op} (exposed : ∀ d ∈ definitions,
      (d.kind.exposure.1 == .exported) = d.kind.isExported) :
    (definitions.map fun op => (op.span, op.kind.exposure)).any (·.2.1 == .exported) = true ↔
      ∃ d ∈ definitions, d.kind.isExported = true := by
  rw [List.any_map, List.any_eq_true]
  refine exists_congr fun d => and_congr_right fun hd => ?_
  rw [← exposed d hd]
  rfl

theorem faces_of_filter {ops : List Op}
    (declare : ∀ op ∈ ops, op.kind.declaration?.map (·.1) = some space) :
    ∀ d ∈ ops.filter (!·.kind.isStub), ∀ s ∈ ops.filter (·.kind.isStub),
      d.kind.Faces space s.kind := by
  intro d hd s hs
  obtain ⟨hd, real⟩ := List.mem_filter.mp hd
  obtain ⟨hs, isStub⟩ := List.mem_filter.mp hs
  exact OpKind.faces_of_declare (by simpa using real) isStub (declare d hd) (declare s hs)

variable {ops : List Op}

theorem exposure_of_filter
    (declare : ∀ op ∈ ops, op.kind.declaration?.map (·.1) = some .modules) :
    ∀ d ∈ ops.filter (!·.kind.isStub), (d.kind.exposure.1 == .exported) = d.kind.isExported := by
  intro d hd
  obtain ⟨hd, real⟩ := List.mem_filter.mp hd
  exact OpKind.exposure_eq (declare d hd) (by simpa using real)

theorem ruling_of_uncontested (declare : ∀ op ∈ ops, op.kind.declaration?.map (·.1) = some space)
    (uncontested : ¬ Contested (ops.filter (!·.kind.isStub))) :
    c.ruling space text (ops.map (·.toNode)) = c.settle space text c.object
      (told (ops.filter (·.kind.isStub)) (ops.filter (!·.kind.isStub))) := by
  have faces := faces_of_filter declare
  cases space with
  | classes =>
    rw [ruling, hear_eq fun op hop => classifyClass_eq (declare op hop), classRuling]
    exact settle_told fun d hd s hs => objectToClass_head (faces d hd s hs)
  | modules =>
    have unexported : (ops.filter (!·.kind.isStub)).length ≤ 1 ∨
        ((ops.filter (!·.kind.isStub)).map fun op => (op.span, op.kind.exposure)).any
          (·.2.1 == .exported) = false := by
      rw [← Nat.not_lt, ← Bool.not_eq_true, any_exported_iff (exposure_of_filter declare)]
      exact not_and_or.mp uncontested
    rw [ruling, hear_eq fun op hop => classifyModule_eq (declare op hop),
      moduleRuling_of_local (by simpa using unexported)]
    exact settle_told fun d hd s hs => objectToPorts_exposure (faces d hd s hs)

theorem ruling_of_contested (declare : ∀ op ∈ ops, op.kind.declaration?.map (·.1) = some space)
    {first : Op} {others : List Op} (heq : ops.filter (!·.kind.isStub) = first :: others)
    (contested : Contested (first :: others)) :
    c.ruling space text (ops.map (·.toNode)) = .error (.rejected ⟨.ambiguous text,
      [Report.about 300
        s!"module `{text}` is declared as a public module but there are multiple public modules defined with the same name"
        first.span
        (others.map fun d => (d.span, if d.kind.isExported
          then s!"module `{text}` is declared here as public"
          else s!"module `{text}` is defined here"))]⟩) := by
  cases space with
  | classes =>
    obtain ⟨-, d, hd, exported⟩ := contested
    have declares := declare d (List.mem_of_mem_filter (heq ▸ hd))
    rw [OpKind.isExported_of_classes declares] at exported
    cases exported
  | modules =>
    have exposed := exposure_of_filter declare
    rw [heq] at exposed
    have several : others ≠ [] := by
      rintro rfl
      exact Contested.not_singleton contested
    have marks : ∀ d ∈ others,
        (d.span, d.kind.exposure.1 == .exported) = (d.span, d.kind.isExported) :=
      fun d hd => congrArg (Prod.mk d.span) (exposed d (List.mem_cons_of_mem first hd))
    rw [ruling, hear_eq fun op hop => classifyModule_eq (declare op hop), heq]
    refine (moduleRuling_of_exported (by simpa using several)
      ((any_exported_iff exposed).mpr contested.2)).trans ?_
    rw [List.map_map, Function.comp_def, List.map_congr_left marks, Report.ambiguous_eq,
      List.map_map]
    rfl

/-- The ruling on the operations that declare a name follows the rule. -/
theorem linkingRule_ruling (declare : ∀ op ∈ ops, op.kind.declaration?.map (·.1) = some space)
    (declared : ops ≠ []) : c.LinkingRule space text (ops.filter (·.kind.isStub))
      (ops.filter (!·.kind.isStub)) (c.ruling space text (ops.map (·.toNode))) := by
  by_cases contested : Contested (ops.filter (!·.kind.isStub))
  · cases heq : ops.filter (!·.kind.isStub) with
    | nil =>
      rw [heq] at contested
      exact absurd contested.1 (Nat.not_lt_zero 1)
    | cons first others =>
      rw [heq] at contested
      rw [ruling_of_contested declare heq contested]
      exact .ambiguous contested
  · rw [ruling_of_uncontested declare contested]
    refine linkingRule_settle contested (faces_of_filter declare) fun nothing => declared ?_
    have count := List.length_eq_length_filter_add (l := ops) (·.kind.isStub)
    rw [← List.length_append, nothing, List.length_nil] at count
    exact List.eq_nil_of_length_eq_zero count

theorem LinkingRule.alike_ruling {outcome : Linking Bool}
    (rule : c.LinkingRule space text (ops.filter (·.kind.isStub)) (ops.filter (!·.kind.isStub))
      outcome)
    (declare : ∀ op ∈ ops, op.kind.declaration?.map (·.1) = some space) :
    Linking.Alike (c.ruling space text (ops.map (·.toNode))) outcome := by
  by_cases contested : Contested (ops.filter (!·.kind.isStub))
  · generalize hstubs : ops.filter (·.kind.isStub) = stubs at rule
    generalize heq : ops.filter (!·.kind.isStub) = definitions at rule contested
    cases rule with
    | ambiguous _ =>
      rw [ruling_of_contested declare heq contested]
      exact .same _
    | unresolved count uncontested => exact absurd contested uncontested
    | apart several uncontested => exact absurd contested uncontested
    | _ => exact absurd contested Contested.not_singleton
  · rw [ruling_of_uncontested declare contested]
    exact rule.alike_settle contested (faces_of_filter declare)

/-- A name that has a text is judged by the linking rule on its stubs and its definitions: what the
court comes to follows the rule, and nothing that ends otherwise does. A name that lacks a text
stops the court at once. -/
theorem judge_iff_linkingRule (c : Court) (space : Space) (name : Name) {sites : List Site}
    {ops : List Op} (live : List.Forall₂ (fun site op => c.op site = .ok op) sites ops)
    (declare : ∀ op ∈ ops, op.kind.declaration?.map (·.1) = some space) (occurs : sites ≠ []) :
    (∀ text, c.lexicon.text name = .ok text → ∀ outcome,
      (c.judge space name sites = outcome → c.LinkingRule space text
        (ops.filter (·.kind.isStub)) (ops.filter (!·.kind.isStub)) outcome) ∧
      (c.LinkingRule space text (ops.filter (·.kind.isStub)) (ops.filter (!·.kind.isStub)) outcome →
        Linking.Alike (c.judge space name sites) outcome)) ∧
    ∀ fault, c.lexicon.Lacks name fault → c.judge space name sites = .error (.fault fault) := by
  have declared : ops ≠ [] := by
    rintro rfl
    exact occurs (List.forall₂_nil_right_iff.mp live)
  rw [judge_eq live declare]
  refine ⟨fun text read outcome => ?_, fun fault lacks => ?_⟩
  · rw [read]
    refine ⟨?_, fun rule => rule.alike_ruling declare⟩
    rintro rfl
    exact linkingRule_ruling declare declared
  · have reads := c.lexicon.text_reads name
    cases read : c.lexicon.text name with
    | ok text =>
      rw [read] at reads
      exact absurd lacks (reads fault)
    | error other =>
      rw [read] at reads
      rw [lacks.2, reads.2]
      rfl

/-- Three units with a module of one name: a stub and an exported definition in the first, and a
definition in each of the others. -/
def clashCourt : Court where
  units :=
    [muxUnit
      [⟨⟨.moduleStub ⟨⟨0⟩, []⟩, ⟨⟨0⟩, 0, 4⟩, [], []⟩, []⟩,
        ⟨⟨.moduleDef .exported ⟨⟨0⟩, []⟩, ⟨⟨0⟩, 5, 9⟩, [], []⟩, []⟩] [⟨0⟩, ⟨1⟩],
    muxUnit [⟨⟨.moduleDef .local ⟨⟨0⟩, []⟩, ⟨⟨1⟩, 0, 4⟩, [], []⟩, []⟩] [⟨0⟩],
    muxUnit [⟨⟨.moduleDef .local ⟨⟨0⟩, []⟩, ⟨⟨2⟩, 0, 4⟩, [], []⟩, []⟩] [⟨0⟩]]
  types := .empty
  lexicon := muxNames

/-- The definitions are named in the order in which they occur, and the stub is not. -/
theorem judge_iff_linkingRule_clash : ∃ message labels,
    clashCourt.judge .modules ⟨0⟩ [⟨1, ⟨0⟩⟩, ⟨0, ⟨0⟩⟩, ⟨0, ⟨1⟩⟩, ⟨2, ⟨0⟩⟩] =
      .error (.rejected ⟨.ambiguous "mux2", [Report.about 300 message ⟨⟨1⟩, 0, 4⟩ labels]⟩) ∧
    labels.map (·.1) = [⟨⟨0⟩, 5, 9⟩, ⟨⟨2⟩, 0, 4⟩] := by
  have live : List.Forall₂ (fun site op => clashCourt.op site = .ok op)
      [⟨1, ⟨0⟩⟩, ⟨0, ⟨0⟩⟩, ⟨0, ⟨1⟩⟩, ⟨2, ⟨0⟩⟩] _ :=
    .cons rfl (.cons rfl (.cons rfl (.cons rfl .nil)))
  obtain ⟨judged, -⟩ := judge_iff_linkingRule clashCourt .modules ⟨0⟩ live (by decide) nofun
  have text : clashCourt.lexicon.text ⟨0⟩ = .ok "mux2" := by decide +kernel
  obtain ⟨-, ends⟩ := judged "mux2" text _
  have alike := ends (.ambiguous ⟨by decide, by decide⟩)
  generalize clashCourt.judge .modules ⟨0⟩ _ = outcome at alike ⊢
  cases alike
  exact ⟨_, _, rfl, rfl⟩

def untypedCourt : Court where
  units :=
    [muxUnit [muxOp (.moduleDef .local ⟨⟨1⟩, [⟨⟨4⟩, .input, ⟨5⟩⟩]⟩) [] []] [⟨0⟩],
    muxUnit [muxOp (.moduleStub ⟨⟨1⟩, [⟨⟨4⟩, .input, ⟨6⟩⟩]⟩) [] []] [⟨0⟩]]
  types := .empty
  lexicon := muxNames

/-- The stub is incompatible with the only definition, but the name is not turned down for it. -/
theorem judge_stops_at_type :
    (∀ site ∈ [⟨0, ⟨0⟩⟩, ⟨1, ⟨0⟩⟩], ∃ op, untypedCourt.op site = .ok op ∧
      op.kind.declaration? = some (.modules, ⟨1⟩)) ∧
    ¬ (OpKind.moduleDef .local ⟨⟨1⟩, [⟨⟨4⟩, .input, ⟨5⟩⟩]⟩).Agrees
      (.moduleStub ⟨⟨1⟩, [⟨⟨4⟩, .input, ⟨6⟩⟩]⟩) ∧
    untypedCourt.judge .modules ⟨1⟩ [⟨0, ⟨0⟩⟩, ⟨1, ⟨0⟩⟩] = .error (.fault (.unknownType 5)) ∧
    ∀ report, untypedCourt.judge .modules ⟨1⟩ [⟨0, ⟨0⟩⟩, ⟨1, ⟨0⟩⟩] ≠
      .error (.rejected ⟨.mismatch .modules "adder", report⟩) := by
  have stops : untypedCourt.judge .modules ⟨1⟩ [⟨0, ⟨0⟩⟩, ⟨1, ⟨0⟩⟩] =
      .error (.fault (.unknownType 5)) := rfl
  refine ⟨fun site hsite => ?_, nofun, stops, fun report turnedDown => ?_⟩
  · rcases List.mem_pair.mp hsite with rfl | rfl
    · exact ⟨_, rfl, rfl⟩
    · exact ⟨_, rfl, rfl⟩
  · cases stops.symm.trans turnedDown

end Court

end Linkage
