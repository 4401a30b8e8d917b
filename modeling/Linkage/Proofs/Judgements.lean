import Linkage.Proofs.Acceptance
import Linkage.Proofs.Outcomes
import Linkage.Proofs.TyWords
/-!
What a court goes by. Its verdict on a name depends on the operations that declare the name and on
the words for what they mention, and on nothing else about the units. If all types mentioned stand
for something, the court comes to a verdict or turns the name down, and says so in one diagnostic.
-/
namespace Linkage

inductive Rejection.Concerns (text : String) : Space → Rejection → Prop
  | ambiguous (first : Span) (others : List (Span × Bool)) :
    Concerns text .modules ⟨.ambiguous text, [Report.ambiguous text first others]⟩
  | unresolved (space : Space) (stubs definitions : List Span) :
    Concerns text space ⟨.unresolved space text definitions.length,
      [Report.unresolved space text stubs definitions]⟩
  | mismatch (space : Space) (stub definition : Span) (detail : String) :
    Concerns text space ⟨.mismatch space text,
      [Report.mismatch space text stub definition detail]⟩
  | uncovered (field : String) (stub definition : Span) :
    Concerns text .classes ⟨.uncovered text field,
      [Report.uncovered text field stub definition]⟩

namespace PortDifference

def types : PortDifference → List TyId
  | .ty _ l r => [l, r]
  | _ => []

def names : PortDifference → List Name
  | .name _ l r => [l, r]
  | _ => []

theorem first_mentions {index : Nat} {definition stub : List Port} {difference : PortDifference}
    (h : first index definition stub = some difference) :
    difference.types ⊆ definition.map (·.ty) ++ stub.map (·.ty) ∧
      difference.names ⊆ definition.map (·.name) ++ stub.map (·.name) := by
  induction definition generalizing index stub with
  | nil => simp [first] at h
  | cons l ls ih =>
    cases stub with
    | nil => simp [first] at h
    | cons r rs =>
      unfold first at h
      split at h
      · cases h
        simp [types, names]
      · split at h
        · cases h
          simp [types, names]
        · split at h
          · cases h
            simp [types, names]
          · obtain ⟨htypes, hnames⟩ := ih h
            constructor
            · intro id hid
              have := htypes hid
              simp only [List.mem_append, List.map_cons, List.mem_cons] at this ⊢
              tauto
            · intro name hname
              have := hnames hname
              simp only [List.mem_append, List.map_cons, List.mem_cons] at this ⊢
              tauto

theorem find_mentions {definition stub : List Port} {difference : PortDifference}
    (h : find definition stub = some difference) :
    difference.types ⊆ definition.map (·.ty) ++ stub.map (·.ty) ∧
      difference.names ⊆ definition.map (·.name) ++ stub.map (·.name) := by
  unfold find at h
  split at h
  · cases h
    simp [types, names]
  · exact first_mentions h

end PortDifference

namespace ClassDifference

def types : ClassDifference → List TyId
  | .paramType _ l r | .fieldType _ l r => [l, r]
  | _ => []

def names : ClassDifference → List Name
  | .unknownField name | .fieldType name _ _ | .uncovered name => [name]
  | _ => []

theorem firstParam_mentions {index : Nat} {definition stub : List Param}
    {difference : ClassDifference} (h : firstParam index definition stub = some difference) :
    difference.types ⊆ definition.map (·.ty) ++ stub.map (·.ty) ∧ difference.names = [] := by
  induction definition generalizing index stub with
  | nil => simp [firstParam] at h
  | cons l ls ih =>
    cases stub with
    | nil => simp [firstParam] at h
    | cons r rs =>
      unfold firstParam at h
      split at h
      · cases h
        simp [types, names]
      · obtain ⟨htypes, hnames⟩ := ih h
        refine ⟨fun id hid => ?_, hnames⟩
        have := htypes hid
        simp only [List.mem_append, List.map_cons, List.mem_cons] at this ⊢
        tauto

theorem ofField_mentions {definition : ClassHead} {field : Field} {difference : ClassDifference}
    (h : ofField definition field = some difference) :
    difference.types ⊆ field.ty :: definition.fields.map (·.ty) ∧
      difference.names = [field.name] := by
  unfold ofField at h
  split at h
  · cases h
    simp [types, names]
  · next found hfound =>
    have known : found ∈ definition.fields := List.mem_of_find?_eq_some hfound
    split at h
    · cases h
      refine ⟨?_, rfl⟩
      simp only [types, List.cons_subset, List.nil_subset, and_true, List.mem_cons, true_or]
      exact .inr (List.mem_map_of_mem known)
    · cases h

theorem find_mentions {definition stub : ClassHead} {difference : ClassDifference}
    (h : find definition stub = some difference) :
    difference.types ⊆ definition.types ++ stub.types ∧
      difference.names ⊆ definition.fields.map (·.name) ++ stub.fields.map (·.name) := by
  unfold find at h
  split at h
  · cases h
    simp [types, names]
  · simp only [Option.or_eq_some_iff] at h
    rcases h with h | ⟨-, h | ⟨-, h⟩⟩
    · obtain ⟨htypes, hnames⟩ := firstParam_mentions h
      refine ⟨fun id hid => ?_, by simp [hnames]⟩
      have := htypes hid
      simp only [ClassHead.types, List.mem_append] at this ⊢
      tauto
    · obtain ⟨field, hfield, h⟩ := List.exists_of_findSome?_eq_some h
      obtain ⟨htypes, hnames⟩ := ofField_mentions h
      have listed : field.ty ∈ stub.fields.map (·.ty) := List.mem_map_of_mem hfield
      refine ⟨fun id hid => ?_, ?_⟩
      · have := htypes hid
        simp only [ClassHead.types, List.mem_append, List.mem_cons] at this ⊢
        rcases this with rfl | this
        · exact .inr (.inr listed)
        · exact .inl (.inr this)
      · rw [hnames]
        exact List.cons_subset.mpr
          ⟨List.mem_append_right _ (List.mem_map_of_mem hfield), List.nil_subset _⟩
    · obtain ⟨field, hfield, rfl⟩ := Option.map_eq_some_iff.mp h
      have listed : field ∈ definition.fields := List.mem_of_find?_eq_some hfield
      refine ⟨by simp [types], ?_⟩
      simp only [names, List.cons_subset, List.nil_subset, and_true]
      exact List.mem_append_left _ (List.mem_map_of_mem listed)

theorem mem_fields_of_uncovered {definition stub : ClassHead} {name : Name}
    (h : find definition stub = some (.uncovered name)) :
    name ∈ definition.fields.map (·.name) := by
  unfold find at h
  split at h
  · cases h
  · simp only [Option.or_eq_some_iff] at h
    rcases h with h | ⟨-, h | ⟨-, h⟩⟩
    · obtain ⟨-, none_⟩ := firstParam_mentions h
      cases none_
    · obtain ⟨field, -, h⟩ := List.exists_of_findSome?_eq_some h
      unfold ofField at h
      split at h
      · cases h
      · split at h <;> cases h
    · obtain ⟨field, hfield, heq⟩ := Option.map_eq_some_iff.mp h
      cases heq
      exact List.mem_map_of_mem (List.mem_of_find?_eq_some hfield)

theorem firstField_congr {l l' : Lexicon} {definition : ClassHead} {fields : List Field}
    (names : ∀ field ∈ fields, l.text field.name = l'.text field.name) :
    firstField l definition fields = firstField l' definition fields := by
  induction fields with
  | nil => rfl
  | cons field rest ih =>
    obtain ⟨first, others⟩ := List.forall_mem_cons.mp names
    simp only [firstField, first, ih others]

theorem search_congr {l l' : Lexicon} {definition stub : ClassHead}
    (names : ∀ field ∈ stub.fields, l.text field.name = l'.text field.name) :
    search l definition stub = search l' definition stub := by
  simp only [search, firstField_congr names]

theorem firstField_ends {excused : Fault → Prop} {l : Lexicon} {definition : ClassHead}
    {fields : List Field}
    (names : ∀ field ∈ fields, Ends (fun _ => True) excused (l.text field.name)) :
    Ends (fun _ => True) excused (firstField l definition fields) := by
  induction fields with
  | nil => trivial
  | cons field rest ih =>
    obtain ⟨first, others⟩ := List.forall_mem_cons.mp names
    refine first.bind fun _ _ => ?_
    split
    · trivial
    · exact ih others

theorem search_ends {excused : Fault → Prop} {l : Lexicon} (definition : ClassHead)
    {stub : ClassHead}
    (names : ∀ field ∈ stub.fields, Ends (fun _ => True) excused (l.text field.name)) :
    Ends (fun difference => difference = find definition stub) excused
      (search l definition stub) := by
  have ends : Ends (fun _ => True) excused (search l definition stub) := by
    unfold search
    split
    · trivial
    · split
      · trivial
      · refine (firstField_ends names).bind fun _ _ => ?_
        split <;> trivial
  cases answer : search l definition stub with
  | error fault =>
    rw [answer] at ends
    exact ends
  | ok difference => exact search_ok answer

end ClassDifference

namespace Court

def object (c : Court) : OpKind → OpKind → Checked (Option Objection)
  | .moduleDef _ definition, .moduleStub stub => c.objectToPorts definition.ports stub.ports
  | .classDef definition, .classStub stub => c.objectToClass definition stub
  | _, _ => .ok none

theorem objectToPorts_congr {c c' : Court} {definition stub : List Port}
    (names : ∀ name ∈ definition.map (·.name) ++ stub.map (·.name),
      c.lexicon.text name = c'.lexicon.text name)
    (types : ∀ id ∈ definition.map (·.ty) ++ stub.map (·.ty),
      c.types.display c.lexicon id = c'.types.display c'.lexicon id) :
    c.objectToPorts definition stub = c'.objectToPorts definition stub := by
  unfold objectToPorts
  cases hdifference : PortDifference.find definition stub with
  | none => rfl
  | some difference =>
    obtain ⟨htypes, hnames⟩ := PortDifference.find_mentions hdifference
    cases difference with
    | count l r => rfl
    | direction index l r => rfl
    | name index l r =>
      have left := names l (hnames List.mem_cons_self)
      have right := names r (hnames (List.mem_cons_of_mem _ List.mem_cons_self))
      simp only [PortDifference.describe, left, right]
    | ty index l r =>
      have left := types l (htypes List.mem_cons_self)
      have right := types r (htypes (List.mem_cons_of_mem _ List.mem_cons_self))
      simp only [PortDifference.describe, left, right]

theorem objectToClass_congr {c c' : Court} {definition stub : ClassHead}
    (names : ∀ name ∈ definition.fields.map (·.name) ++ stub.fields.map (·.name),
      c.lexicon.text name = c'.lexicon.text name)
    (types : ∀ id ∈ definition.types ++ stub.types,
      c.types.display c.lexicon id = c'.types.display c'.lexicon id) :
    c.objectToClass definition stub = c'.objectToClass definition stub := by
  have searches : ClassDifference.search c.lexicon definition stub =
      ClassDifference.search c'.lexicon definition stub :=
    ClassDifference.search_congr fun field hfield =>
      names field.name (List.mem_append_right _ (List.mem_map_of_mem hfield))
  unfold objectToClass
  rw [searches]
  cases found : ClassDifference.search c'.lexicon definition stub with
  | error fault => rfl
  | ok difference =>
    cases difference with
    | none => rfl
    | some difference =>
      obtain ⟨htypes, hnames⟩ :=
        ClassDifference.find_mentions (ClassDifference.search_ok found).symm
      cases difference with
      | paramCount l r => rfl
      | paramType index l r =>
        have left := types l (htypes List.mem_cons_self)
        have right := types r (htypes (List.mem_cons_of_mem _ List.mem_cons_self))
        simp only [ok_bind, left, right]
      | unknownField name =>
        simp only [ok_bind, names name (hnames List.mem_cons_self)]
      | fieldType name l r =>
        have left := types l (htypes List.mem_cons_self)
        have right := types r (htypes (List.mem_cons_of_mem _ List.mem_cons_self))
        simp only [ok_bind, left, right, names name (hnames List.mem_cons_self)]
      | uncovered name => rfl

theorem object_congr {c c' : Court} {definition stub : OpKind}
    (names : ∀ name ∈ definition.members ++ stub.members,
      c.lexicon.text name = c'.lexicon.text name)
    (types : ∀ id ∈ definition.types ++ stub.types,
      c.types.display c.lexicon id = c'.types.display c'.lexicon id) :
    c.object definition stub = c'.object definition stub := by
  unfold object
  split
  · exact objectToPorts_congr names types
  · refine objectToClass_congr (fun name hname => names name ?_) types
    simp only [OpKind.members, List.mem_append] at hname ⊢
    tauto
  · rfl

section

variable {c : Court} {excused : Fault → Prop}

/-- An objection that the court can put into words. Only classes are found to leave a field out. -/
def Worded (c : Court) (space : Space) (excused : Fault → Prop) : Option Objection → Prop
  | some (.uncovered field) =>
    space = .classes ∧ Ends (fun _ => True) excused (c.lexicon.text field)
  | _ => True

theorem objectToPorts_ends {definition stub : List Port}
    (types : ∀ id ∈ definition.map (·.ty) ++ stub.map (·.ty),
      Ends (fun _ => True) excused (c.types.display c.lexicon id))
    (names : ∀ name ∈ definition.map (·.name) ++ stub.map (·.name),
      Ends (fun _ => True) excused (c.lexicon.text name)) :
    Ends (c.Worded .modules excused) excused (c.objectToPorts definition stub) := by
  unfold objectToPorts
  cases hdifference : PortDifference.find definition stub with
  | none => trivial
  | some difference =>
    obtain ⟨htypes, hnames⟩ := PortDifference.find_mentions hdifference
    have described : Ends (fun _ => True) excused (difference.describe c.types c.lexicon) := by
      cases difference with
      | ty index l r =>
        refine (types l (htypes List.mem_cons_self)).bind fun _ _ => ?_
        have right := types r (htypes (List.mem_cons_of_mem _ List.mem_cons_self))
        exact right.bind fun _ _ => trivial
      | name index l r =>
        refine (names l (hnames List.mem_cons_self)).bind fun _ _ => ?_
        have right := names r (hnames (List.mem_cons_of_mem _ List.mem_cons_self))
        exact right.bind fun _ _ => trivial
      | _ => trivial
    exact described.bind fun _ _ => trivial

theorem objectToClass_ends {definition stub : ClassHead}
    (types : ∀ id ∈ definition.types ++ stub.types,
      Ends (fun _ => True) excused (c.types.display c.lexicon id))
    (names : ∀ name ∈ definition.fields.map (·.name) ++ stub.fields.map (·.name),
      Ends (fun _ => True) excused (c.lexicon.text name)) :
    Ends (c.Worded .classes excused) excused (c.objectToClass definition stub) := by
  have stated : ∀ field ∈ stub.fields,
      Ends (fun _ => True) excused (c.lexicon.text field.name) := fun field hfield =>
    names field.name (List.mem_append_right _ (List.mem_map_of_mem hfield))
  have searches := ClassDifference.search_ends definition stated
  refine searches.bind fun difference found => ?_
  cases difference with
  | none => trivial
  | some difference =>
    obtain ⟨htypes, hnames⟩ := ClassDifference.find_mentions found.symm
    cases difference with
    | paramCount l r => trivial
    | paramType index l r =>
      refine (types l (htypes List.mem_cons_self)).bind fun _ _ => ?_
      have right := types r (htypes (List.mem_cons_of_mem _ List.mem_cons_self))
      exact right.bind fun _ _ => trivial
    | unknownField name =>
      exact (names name (hnames List.mem_cons_self)).bind fun _ _ => trivial
    | fieldType name l r =>
      refine (names name (hnames List.mem_cons_self)).bind fun _ _ => ?_
      refine (types l (htypes List.mem_cons_self)).bind fun _ _ => ?_
      have right := types r (htypes (List.mem_cons_of_mem _ List.mem_cons_self))
      exact right.bind fun _ _ => trivial
    | uncovered name => exact ⟨rfl, names name (hnames List.mem_cons_self)⟩

theorem mem_members_of_uncovered {definition stub : OpKind} {field : Name}
    (h : c.object definition stub = .ok (some (.uncovered field))) :
    field ∈ definition.members := by
  unfold object at h
  split at h
  · unfold objectToPorts at h
    split at h
    · cases h
    · obtain ⟨_, -, h⟩ := bind_eq_ok.mp h
      cases h
  · obtain ⟨difference, found, h⟩ := bind_eq_ok.mp h
    have mentions := ClassDifference.search_ok found
    split at h
    · cases h
    · next name =>
      cases h
      exact List.mem_append_right _ (ClassDifference.mem_fields_of_uncovered mentions.symm)
    · cases h
    · obtain ⟨_, -, h⟩ := bind_eq_ok.mp h
      obtain ⟨_, -, h⟩ := bind_eq_ok.mp h
      cases h
    · obtain ⟨_, -, h⟩ := bind_eq_ok.mp h
      cases h
    · obtain ⟨_, -, h⟩ := bind_eq_ok.mp h
      obtain ⟨_, -, h⟩ := bind_eq_ok.mp h
      obtain ⟨_, -, h⟩ := bind_eq_ok.mp h
      cases h
  · cases h

end

variable {α : Type} {c c' : Court} {space : Space} {text : String}

def hear (classify : OpKind → Option (Bool × α)) (nodes : List Node) : Claimants α where
  stubs := nodes.filterMap fun n => match classify n.kind with
    | some (true, a) => some (n.span, a)
    | _ => none
  definitions := nodes.filterMap fun n => match classify n.kind with
    | some (false, a) => some (n.span, a)
    | _ => none

theorem claimants_eq {classify : OpKind → Option (Bool × α)} {sites : List Site} {ops : List Op}
    (hops : List.Forall₂ (fun site op => c.op site = .ok op) sites ops)
    (known : ∀ op ∈ ops, (classify op.kind).isSome = true) :
    c.claimants space text classify sites = .ok (hear classify (ops.map (·.toNode))) := by
  unfold claimants
  -- what was heard before only stands in front of what is heard from here on
  change _ = Except.ok (Claimants.mk
    ((Claimants.mk [] []).stubs ++ (hear classify (ops.map (·.toNode))).stubs)
    ((Claimants.mk [] []).definitions ++ (hear classify (ops.map (·.toNode))).definitions))
  generalize (Claimants.mk [] [] : Claimants α) = start
  induction hops generalizing start with
  | nil => simp [hear]; rfl
  | @cons site op sites ops hop _ ih =>
    obtain ⟨head, others⟩ := List.forall_mem_cons.mp known
    obtain ⟨⟨stub, a⟩, hclassify⟩ := Option.isSome_iff_exists.mp head
    simp only [List.foldlM_cons, hop, ok_bind, hclassify]
    cases stub with
    | true =>
      refine (ih others _).trans ?_
      simp [hear, hclassify]
    | false =>
      refine (ih others _).trans ?_
      simp [hear, hclassify]

theorem mem_hear {classify : OpKind → Option (Bool × α)} {nodes : List Node} {s : Span × α} :
    (s ∈ (hear classify nodes).stubs → ∃ n ∈ nodes, classify n.kind = some (true, s.2)) ∧
      (s ∈ (hear classify nodes).definitions →
        ∃ n ∈ nodes, classify n.kind = some (false, s.2)) := by
  constructor
  · intro h
    obtain ⟨n, hn, h⟩ := List.mem_filterMap.mp h
    split at h
    · next a ha => cases h; exact ⟨n, hn, ha⟩
    · cases h
  · intro h
    obtain ⟨n, hn, h⟩ := List.mem_filterMap.mp h
    split at h
    · next a ha => cases h; exact ⟨n, hn, ha⟩
    · cases h

theorem judgeStubs_congr {object object' : α → α → Checked (Option Objection)}
    {definition : Span × α} {stubs : List (Span × α)}
    (same : ∀ stub ∈ stubs, object definition.2 stub.2 = object' definition.2 stub.2)
    (texts : ∀ stub ∈ stubs, ∀ field, object definition.2 stub.2 = .ok (some (.uncovered field)) →
      c.lexicon.text field = c'.lexicon.text field) :
    c.judgeStubs space text object definition stubs =
      c'.judgeStubs space text object' definition stubs := by
  induction stubs with
  | nil => rfl
  | cons stub rest ih =>
    obtain ⟨head, others⟩ := List.forall_mem_cons.mp same
    obtain ⟨spoken, others'⟩ := List.forall_mem_cons.mp texts
    simp only [judgeStubs, ← head, ih others others']
    cases answer : object definition.2 stub.2 with
    | error fault => rfl
    | ok objection =>
      rcases objection with _ | detail | field
      · rfl
      · rfl
      · have word := spoken field answer
        simp only [Linking.ofChecked, Except.mapError, ok_bind, word]

theorem settle_congr {object object' : α → α → Checked (Option Objection)} {found : Claimants α}
    (same : ∀ definition ∈ found.definitions, ∀ stub ∈ found.stubs,
      object definition.2 stub.2 = object' definition.2 stub.2)
    (texts : ∀ definition ∈ found.definitions, ∀ stub ∈ found.stubs, ∀ field,
      object definition.2 stub.2 = .ok (some (.uncovered field)) →
        c.lexicon.text field = c'.lexicon.text field) :
    c.settle space text object found = c'.settle space text object' found := by
  unfold settle
  split
  · rfl
  · split
    · next definition heq =>
      have listed : definition ∈ found.definitions := heq ▸ List.mem_cons_self
      have each : c.judgeStubs space text object definition found.stubs =
          c'.judgeStubs space text object' definition found.stubs :=
        judgeStubs_congr (same definition listed) (texts definition listed)
      simp only [each]
    · rfl

variable {excused : Fault → Prop}

theorem judgeStubs_answers {object : α → α → Checked (Option Objection)} {definition : Span × α}
    {stubs : List (Span × α)} (ends : ∀ stub ∈ stubs,
      Ends (c.Worded space excused) excused (object definition.2 stub.2)) :
    Linking.Answers (Rejection.Concerns text space) excused
      (c.judgeStubs space text object definition stubs) := by
  induction stubs with
  | nil => trivial
  | cons stub rest ih =>
    obtain ⟨first, others⟩ := List.forall_mem_cons.mp ends
    obtain ⟨span, stub⟩ := stub
    refine (Linking.ofChecked_ends first).bind fun objection worded => ?_
    match objection, worded with
    | none, _ => exact ih others
    | some (.differs detail), _ => exact .mismatch space span definition.1 detail
    | some (.uncovered field), ⟨classes, spoken⟩ =>
      subst classes
      exact (Linking.ofChecked_ends spoken).bind fun field _ =>
        .uncovered field span definition.1

theorem settle_answers {object : α → α → Checked (Option Objection)} {found : Claimants α}
    (ends : ∀ definition ∈ found.definitions, ∀ stub ∈ found.stubs,
      Ends (c.Worded space excused) excused (object definition.2 stub.2)) :
    Linking.Answers (Rejection.Concerns text space) excused
      (c.settle space text object found) := by
  unfold settle
  split
  · trivial
  · split
    · next definition heq =>
      have each := ends definition (heq ▸ List.mem_cons_self)
      exact (judgeStubs_answers each).bind fun _ _ => trivial
    · have concerns : Rejection.Concerns text space
          ⟨.unresolved space text (found.definitions.map (·.1)).length,
            [Report.unresolved space text (found.stubs.map (·.1))
              (found.definitions.map (·.1))]⟩ := .unresolved space _ _
      rw [List.length_map] at concerns
      exact concerns

theorem classifyModule_eq_definition {kind : OpKind} {a : Visibility × List Port}
    (h : classifyModule kind = some (false, a)) :
    ∃ visibility head, kind = .moduleDef visibility head ∧ a = (visibility, head.ports) := by
  cases kind with
  | moduleDef visibility head => cases h; exact ⟨visibility, head, rfl, rfl⟩
  | _ => cases h

theorem classifyModule_eq_stub {kind : OpKind} {a : Visibility × List Port}
    (h : classifyModule kind = some (true, a)) :
    ∃ head, kind = .moduleStub head ∧ a = (.local, head.ports) := by
  cases kind with
  | moduleStub head => cases h; exact ⟨head, rfl, rfl⟩
  | _ => cases h

theorem classifyClass_eq_some {kind : OpKind} {stub : Bool} {head : ClassHead}
    (h : classifyClass kind = some (stub, head)) :
    kind = if stub then .classStub head else .classDef head := by
  cases kind <;> cases h <;> rfl

def moduleRuling (c : Court) (text : String) (found : Claimants (Visibility × List Port)) :
    Linking Bool := do
  match found.definitions with
  | first :: others@(_ :: _) =>
    if found.definitions.any (·.2.1 == .exported) then
      .reject (.ambiguous text) (Report.ambiguous text first.1
        (others.map fun (span, visibility, _) => (span, visibility == .exported)))
  | _ => pure ()
  c.settle .modules text (fun definition stub => c.objectToPorts definition.2 stub.2) found

def classRuling (c : Court) (text : String) (found : Claimants ClassHead) : Linking Bool :=
  c.settle .classes text c.objectToClass found

def ruling (c : Court) (space : Space) (text : String) (nodes : List Node) : Linking Bool :=
  match space with
  | .classes => c.classRuling text (hear classifyClass nodes)
  | .modules => c.moduleRuling text (hear classifyModule nodes)

theorem judge_eq {name : Name} {sites : List Site} {ops : List Op}
    (hops : List.Forall₂ (fun site op => c.op site = .ok op) sites ops)
    (kinds : ∀ op ∈ ops, op.kind.declaration?.map (·.1) = some space) :
    c.judge space name sites = Linking.ofChecked (c.lexicon.text name) >>= fun text =>
      c.ruling space text (ops.map (·.toNode)) := by
  cases space with
  | classes =>
    have known : ∀ op ∈ ops, (classifyClass op.kind).isSome = true := by
      intro op hop
      have kind := kinds op hop
      cases hkind : op.kind <;> rw [hkind] at kind <;> first | rfl | cases kind
    simp only [judge, judgeClass, claimants_eq hops known, ok_bind]
    rfl
  | modules =>
    have known : ∀ op ∈ ops, (classifyModule op.kind).isSome = true := by
      intro op hop
      have kind := kinds op hop
      cases hkind : op.kind <;> rw [hkind] at kind <;> first | rfl | cases kind
    simp only [judge, judgeModule, claimants_eq hops known, ok_bind]
    rfl

theorem object_of_classes {definition stub : Node} {a b : ClassHead}
    (h : classifyClass definition.kind = some (false, a))
    (h' : classifyClass stub.kind = some (true, b)) :
    c.object definition.kind stub.kind = c.objectToClass a b := by
  rw [classifyClass_eq_some h, classifyClass_eq_some h']
  rfl

theorem object_of_modules {definition stub : Node} {a b : Visibility × List Port}
    (h : classifyModule definition.kind = some (false, a))
    (h' : classifyModule stub.kind = some (true, b)) :
    c.object definition.kind stub.kind = c.objectToPorts a.2 b.2 := by
  obtain ⟨visibility, head, hkind, rfl⟩ := classifyModule_eq_definition h
  obtain ⟨head', hkind', rfl⟩ := classifyModule_eq_stub h'
  rw [hkind, hkind']
  rfl

theorem settle_hear_congr {classify : OpKind → Option (Bool × α)}
    {object object' : α → α → Checked (Option Objection)} {nodes : List Node}
    (told : ∀ {definition stub : Node} {a b : α}, classify definition.kind = some (false, a) →
      classify stub.kind = some (true, b) →
        c.object definition.kind stub.kind = object a b ∧
        c'.object definition.kind stub.kind = object' a b)
    (objects : ∀ definition ∈ nodes, ∀ stub ∈ nodes,
      c.object definition.kind stub.kind = c'.object definition.kind stub.kind)
    (names : ∀ n ∈ nodes, ∀ name ∈ n.kind.members, c.lexicon.text name = c'.lexicon.text name) :
    c.settle space text object (hear classify nodes) =
      c'.settle space text object' (hear classify nodes) := by
  refine settle_congr (fun definition hdefinition stub hstub => ?_)
    fun definition hdefinition stub hstub field left => ?_
  · obtain ⟨n, hn, hclassify⟩ := mem_hear.2 hdefinition
    obtain ⟨m, hm, hclassify'⟩ := mem_hear.1 hstub
    obtain ⟨before, after⟩ := told hclassify hclassify'
    rw [← before, ← after]
    exact objects n hn m hm
  · obtain ⟨n, hn, hclassify⟩ := mem_hear.2 hdefinition
    obtain ⟨m, hm, hclassify'⟩ := mem_hear.1 hstub
    rw [← (told hclassify hclassify').1] at left
    exact names n hn field (mem_members_of_uncovered left)

theorem ruling_congr {nodes : List Node}
    (names : ∀ n ∈ nodes, ∀ name ∈ n.kind.members, c.lexicon.text name = c'.lexicon.text name)
    (types : ∀ n ∈ nodes, ∀ id ∈ n.kind.types,
      c.types.display c.lexicon id = c'.types.display c'.lexicon id) :
    c.ruling space text nodes = c'.ruling space text nodes := by
  have objects : ∀ definition ∈ nodes, ∀ stub ∈ nodes,
      c.object definition.kind stub.kind = c'.object definition.kind stub.kind :=
    fun definition hdefinition stub hstub => object_congr
      (List.forall_mem_append.mpr ⟨names definition hdefinition, names stub hstub⟩)
      (List.forall_mem_append.mpr ⟨types definition hdefinition, types stub hstub⟩)
  cases space with
  | classes =>
    exact settle_hear_congr (fun h h' => ⟨object_of_classes h h', object_of_classes h h'⟩)
      objects names
  | modules =>
    have settles : c.settle .modules text
        (fun definition stub => c.objectToPorts definition.2 stub.2)
        (hear classifyModule nodes) = c'.settle .modules text
        (fun definition stub => c'.objectToPorts definition.2 stub.2)
        (hear classifyModule nodes) :=
      settle_hear_congr (fun h h' => ⟨object_of_modules h h', object_of_modules h h'⟩)
        objects names
    simp only [ruling, moduleRuling, settles]

theorem classRuling_answers {found : Claimants ClassHead}
    (ends : ∀ definition ∈ found.definitions, ∀ stub ∈ found.stubs,
      Ends (c.Worded .classes excused) excused (c.objectToClass definition.2 stub.2)) :
    Linking.Answers (Rejection.Concerns text .classes) excused (c.classRuling text found) :=
  settle_answers ends

theorem moduleRuling_answers {found : Claimants (Visibility × List Port)}
    (ends : ∀ definition ∈ found.definitions, ∀ stub ∈ found.stubs,
      Ends (c.Worded .modules excused) excused (c.objectToPorts definition.2.2 stub.2.2)) :
    Linking.Answers (Rejection.Concerns text .modules) excused (c.moduleRuling text found) := by
  have settles : Linking.Answers (Rejection.Concerns text .modules) excused
      (c.settle .modules text (fun definition stub => c.objectToPorts definition.2 stub.2) found) :=
    settle_answers ends
  unfold moduleRuling
  split
  · split
    · exact Rejection.Concerns.ambiguous _ _
    · exact settles
  · exact settles

theorem ruling_answers {nodes : List Node}
    (types : ∀ n ∈ nodes, ∀ id ∈ n.kind.types,
      Ends (fun _ => True) excused (c.types.display c.lexicon id))
    (names : ∀ n ∈ nodes, ∀ name ∈ n.kind.members,
      Ends (fun _ => True) excused (c.lexicon.text name)) :
    Linking.Answers (Rejection.Concerns text space) excused (c.ruling space text nodes) := by
  cases space with
  | classes =>
    refine classRuling_answers fun definition hdefinition stub hstub => ?_
    obtain ⟨n, hn, hclassify⟩ := mem_hear.2 hdefinition
    obtain ⟨m, hm, hclassify'⟩ := mem_hear.1 hstub
    have spoken := List.forall_mem_append.mpr ⟨names n hn, names m hm⟩
    have typed := List.forall_mem_append.mpr ⟨types n hn, types m hm⟩
    rw [classifyClass_eq_some hclassify, classifyClass_eq_some hclassify'] at spoken typed
    simp only [Bool.false_eq_true, if_false, if_true] at spoken typed
    refine objectToClass_ends typed fun name hname => spoken name ?_
    simp only [OpKind.members, List.mem_append] at hname ⊢
    tauto
  | modules =>
    refine moduleRuling_answers fun definition hdefinition stub hstub => ?_
    obtain ⟨n, hn, hclassify⟩ := mem_hear.2 hdefinition
    obtain ⟨m, hm, hclassify'⟩ := mem_hear.1 hstub
    have spoken := List.forall_mem_append.mpr ⟨names n hn, names m hm⟩
    have typed := List.forall_mem_append.mpr ⟨types n hn, types m hm⟩
    obtain ⟨visibility, head, hkind, hports⟩ := classifyModule_eq_definition hclassify
    obtain ⟨head', hkind', hports'⟩ := classifyModule_eq_stub hclassify'
    rw [hkind, hkind'] at spoken typed
    rw [hports, hports']
    exact objectToPorts_ends typed spoken

/-- Two courts that hear the same operations on a name, and have the same words for what these
mention, judge alike. -/
theorem judge_congr {name : Name} {sites sites' : List Site} {ops ops' : List Op}
    (hops : List.Forall₂ (fun site op => c.op site = .ok op) sites ops)
    (hops' : List.Forall₂ (fun site op => c'.op site = .ok op) sites' ops')
    (same : ops.map (·.toNode) = ops'.map (·.toNode))
    (kinds : ∀ op ∈ ops, op.kind.declaration?.map (·.1) = some space)
    (text : c.lexicon.text name = c'.lexicon.text name)
    (names : ∀ op ∈ ops, ∀ name ∈ op.kind.members, c.lexicon.text name = c'.lexicon.text name)
    (types : ∀ op ∈ ops, ∀ id ∈ op.kind.types,
      c.types.display c.lexicon id = c'.types.display c'.lexicon id) :
    c.judge space name sites = c'.judge space name sites' := by
  have kinds' : ∀ op ∈ ops', op.kind.declaration?.map (·.1) = some space := by
    intro op hop
    have heard : op.toNode ∈ ops.map (·.toNode) := same ▸ List.mem_map_of_mem hop
    obtain ⟨op', hop', heq⟩ := List.mem_map.mp heard
    have kind := kinds op' hop'
    rwa [heq] at kind
  rw [judge_eq hops kinds, judge_eq hops' kinds', text, ← same]
  refine bind_congr fun text => ruling_congr ?_ ?_
  · exact List.forall_mem_map.mpr names
  · exact List.forall_mem_map.mpr types

/-- A court that can read the names and types in what it hears judges the name, or turns it down. -/
theorem judge_answers {name : Name} {sites : List Site} {ops : List Op}
    (hops : List.Forall₂ (fun site op => c.op site = .ok op) sites ops)
    (kinds : ∀ op ∈ ops, op.kind.declaration?.map (·.1) = some space)
    (named : Ends (fun _ => True) excused (c.lexicon.text name))
    (names : ∀ op ∈ ops, ∀ name ∈ op.kind.members,
      Ends (fun _ => True) excused (c.lexicon.text name))
    (types : ∀ op ∈ ops, ∀ id ∈ op.kind.types,
      Ends (fun _ => True) excused (c.types.display c.lexicon id)) :
    Linking.Answers (fun r => ∃ text, c.lexicon.text name = .ok text ∧ r.Concerns text space)
      excused (c.judge space name sites) := by
  rw [judge_eq hops kinds]
  refine (Linking.ofChecked_ends named.self).bind fun text htext => ?_
  have answers : Linking.Answers (Rejection.Concerns text space) excused
      (c.ruling space text (ops.map (·.toNode))) :=
    ruling_answers (List.forall_mem_map.mpr types) (List.forall_mem_map.mpr names)
  exact answers.imp fun r concerns => ⟨text, htext, concerns⟩

end Court

end Linkage
