import Linkage.Proofs.Counterparts
import Linkage.Proofs.TyTables
/-!
Visitors that may write. What an operation or an attribute mentions is read as a list, and it is
changed by visitors that go through the same places with a state of their own. The reader and the
writer are written apart, so it is proved that they stay in step: a visitor meets what the reader
lists, in that order, what it leaves is what the reader lists next, and nothing else is touched.
-/
namespace Linkage

variable {σ α β γ : Type}

/-- What a visitor does at a place: it answers with what is to stand there and its next state. -/
abbrev Writes (σ α : Type) := σ → α → α × σ

def Writes.pure (g : α → α) : Writes σ α := fun s a => (g a, s)

theorem mapAccum_pure (g : α → α) (s : σ) (xs : List α) :
    mapAccum (Writes.pure g) s xs = (xs.map g, s) := by
  induction xs generalizing s with
  | nil => rfl
  | cons a rest ih => simp only [mapAccum, Writes.pure, ih, List.map_cons]

structure Spot (β α γ : Type) where
  get : β → α
  put : β → α → β
  rest : β → γ
  get_put : ∀ b a, get (put b a) = a
  rest_put : ∀ b a, rest (put b a) = rest b
  told : ∀ b b', get b = get b' → rest b = rest b' → b = b'

namespace Spot

variable (spot : Spot β α γ)

def visit (f : Writes σ α) (s : σ) (xs : List β) : List β × σ :=
  mapAccum (fun s b => (spot.put b (f s (spot.get b)).1, (f s (spot.get b)).2)) s xs

theorem visit_spec (f : Writes σ α) (s : σ) (xs : List β) :
    mapAccum f s (xs.map spot.get) =
        ((spot.visit f s xs).1.map spot.get, (spot.visit f s xs).2) ∧
      xs.map spot.rest = (spot.visit f s xs).1.map spot.rest := by
  induction xs generalizing s with
  | nil => exact ⟨rfl, rfl⟩
  | cons b others ih =>
    obtain ⟨visited, kept⟩ := ih (f s (spot.get b)).2
    simp only [visit] at visited kept
    simp only [visit, mapAccum, List.map_cons, spot.get_put, spot.rest_put, visited, kept,
      true_and]

theorem visit_pure (g : α → α) (s : σ) (xs : List β) :
    spot.visit (Writes.pure g) s xs = (xs.map fun b => spot.put b (g (spot.get b)), s) :=
  mapAccum_pure (fun b => spot.put b (g (spot.get b))) s xs

theorem eq_of_map {xs ys : List β} (gets : xs.map spot.get = ys.map spot.get)
    (rests : xs.map spot.rest = ys.map spot.rest) : xs = ys := by
  have pairs := congrArg₂ List.zip gets rests
  rw [List.zip_map', List.zip_map'] at pairs
  refine List.map_injective_iff.mpr (fun b b' same => ?_) pairs
  obtain ⟨gets, rests⟩ := Prod.mk.inj same
  exact spot.told b b' gets rests

end Spot

/-- A reader, a visitor and a map in step. The frame relates what differs in the places that are
read and in nothing else. -/
structure InStep (read : α → List β) (visit : {σ : Type} → Writes σ β → σ → α → α × σ)
    (map : (β → β) → α → α) (frame : α → α → Prop) : Prop where
  /-- The visitor meets what is read, in that order, and what it leaves there is read next. -/
  visits : ∀ {σ : Type} (f : Writes σ β) (s : σ) (a : α),
    mapAccum f s (read a) = (read (visit f s a).1, (visit f s a).2)
  framed : ∀ {σ : Type} (f : Writes σ β) (s : σ) (a : α), frame a (visit f s a).1
  /-- Whatever is not read is in the frame. -/
  told : ∀ a b, frame a b → read a = read b → a = b
  /-- Mapping a function is visiting without a state. -/
  visit_pure : ∀ {σ : Type} (g : β → β) (s : σ) (a : α), visit (Writes.pure g) s a = (map g a, s)
  read_map : ∀ (g : β → β) (a : α), read (map g a) = (read a).map g
  map_map : ∀ (g h : β → β) (a : α), map h (map g a) = map (h ∘ g) a

namespace Attr

mutual

def visitRefs {σ : Type} (f : Writes σ Name) (s : σ) : Attr → Attr × σ
  | .ref name =>
    let (name, s) := f s name
    (.ref name, s)
  | .array items =>
    let (items, s) := visitItems f s items
    (.array items, s)
  | .dict entries =>
    let (entries, s) := visitEntries f s entries
    (.dict entries, s)
  | .int value => (.int value, s)
  | .str value => (.str value, s)
  | .bool value => (.bool value, s)

def visitItems {σ : Type} (f : Writes σ Name) (s : σ) : List Attr → List Attr × σ
  | [] => ([], s)
  | item :: rest =>
    let (item, s) := visitRefs f s item
    let (rest, s) := visitItems f s rest
    (item :: rest, s)

def visitEntries {σ : Type} (f : Writes σ Name) (s : σ) :
    List (Name × Attr) → List (Name × Attr) × σ
  | [] => ([], s)
  | (key, value) :: rest =>
    let (value, s) := visitRefs f s value
    let (rest, s) := visitEntries f s rest
    ((key, value) :: rest, s)

end

mutual

def SameFrame : Attr → Attr → Prop
  | .int value, .int value' => value = value'
  | .str value, .str value' => value = value'
  | .bool value, .bool value' => value = value'
  | .ref _, .ref _ => True
  | .array items, .array items' => SameItems items items'
  | .dict entries, .dict entries' => SameEntries entries entries'
  | _, _ => False

def SameItems : List Attr → List Attr → Prop
  | [], [] => True
  | item :: rest, item' :: rest' => SameFrame item item' ∧ SameItems rest rest'
  | _, _ => False

def SameEntries : List (Name × Attr) → List (Name × Attr) → Prop
  | [], [] => True
  | (key, value) :: rest, (key', value') :: rest' =>
    (key = key' ∧ SameFrame value value') ∧ SameEntries rest rest'
  | _, _ => False

end

mutual

theorem visitRefs_spec (f : Writes σ Name) (s : σ) (a : Attr) :
    mapAccum f s a.refs = ((a.visitRefs f s).1.refs, (a.visitRefs f s).2) ∧
      a.SameFrame (a.visitRefs f s).1 := by
  cases a with
  | array items => exact visitItems_spec f s items
  | dict entries => exact visitEntries_spec f s entries
  | _ => exact ⟨rfl, by simp [visitRefs, SameFrame]⟩

theorem visitItems_spec (f : Writes σ Name) (s : σ) (items : List Attr) :
    mapAccum f s (refsOfItems items) =
        (refsOfItems (visitItems f s items).1, (visitItems f s items).2) ∧
      SameItems items (visitItems f s items).1 := by
  cases items with
  | nil => exact ⟨rfl, trivial⟩
  | cons item rest =>
    obtain ⟨visited, frame⟩ := visitRefs_spec f s item
    obtain ⟨others, frames⟩ := visitItems_spec f (visitRefs f s item).2 rest
    refine ⟨?_, frame, frames⟩
    simp only [visitItems, refsOfItems, mapAccum_append, visited, others]

theorem visitEntries_spec (f : Writes σ Name) (s : σ) (entries : List (Name × Attr)) :
    mapAccum f s (refsOfEntries entries) =
        (refsOfEntries (visitEntries f s entries).1, (visitEntries f s entries).2) ∧
      SameEntries entries (visitEntries f s entries).1 := by
  cases entries with
  | nil => exact ⟨rfl, trivial⟩
  | cons entry rest =>
    obtain ⟨visited, frame⟩ := visitRefs_spec f s entry.2
    obtain ⟨others, frames⟩ := visitEntries_spec f (visitRefs f s entry.2).2 rest
    refine ⟨?_, ⟨rfl, frame⟩, frames⟩
    simp only [visitEntries, refsOfEntries, mapAccum_append, visited, others]

end

mutual

theorem SameFrame.length_refs {a b : Attr} (h : a.SameFrame b) :
    a.refs.length = b.refs.length := by
  cases a <;> cases b <;> simp only [SameFrame] at h <;> try rfl
  · next items items' => exact SameItems.length_refs h
  · next entries entries' => exact SameEntries.length_refs h

theorem SameItems.length_refs {items items' : List Attr} (h : SameItems items items') :
    (refsOfItems items).length = (refsOfItems items').length := by
  match items, items' with
  | [], [] => rfl
  | item :: rest, item' :: rest' =>
    rw [refsOfItems, refsOfItems, List.length_append, List.length_append,
      SameFrame.length_refs h.1, SameItems.length_refs h.2]

theorem SameEntries.length_refs {entries entries' : List (Name × Attr)}
    (h : SameEntries entries entries') :
    (refsOfEntries entries).length = (refsOfEntries entries').length := by
  match entries, entries' with
  | [], [] => rfl
  | (key, value) :: rest, (key', value') :: rest' =>
    rw [refsOfEntries, refsOfEntries, List.length_append, List.length_append,
      SameFrame.length_refs h.1.2, SameEntries.length_refs h.2]

end

mutual

theorem SameFrame.eq_of_refs {a b : Attr} (h : a.SameFrame b) (same : a.refs = b.refs) :
    a = b := by
  cases a <;> cases b <;> simp only [SameFrame] at h
  · exact congrArg Attr.int h
  · exact congrArg Attr.str h
  · exact congrArg Attr.bool h
  · exact congrArg Attr.ref (List.cons.inj same).1
  · exact congrArg Attr.array (SameItems.eq_of_refs h same)
  · exact congrArg Attr.dict (SameEntries.eq_of_refs h same)

theorem SameItems.eq_of_refs {items items' : List Attr} (h : SameItems items items')
    (same : refsOfItems items = refsOfItems items') : items = items' := by
  match items, items' with
  | [], [] => rfl
  | item :: rest, item' :: rest' =>
    obtain ⟨first, others⟩ := List.append_inj same h.1.length_refs
    rw [SameFrame.eq_of_refs h.1 first, SameItems.eq_of_refs h.2 others]

theorem SameEntries.eq_of_refs {entries entries' : List (Name × Attr)}
    (h : SameEntries entries entries') (same : refsOfEntries entries = refsOfEntries entries') :
    entries = entries' := by
  match entries, entries' with
  | [], [] => rfl
  | (key, value) :: rest, (key', value') :: rest' =>
    obtain ⟨first, others⟩ := List.append_inj same h.1.2.length_refs
    rw [h.1.1, SameFrame.eq_of_refs h.1.2 first, SameEntries.eq_of_refs h.2 others]

end

mutual

theorem visitRefs_pure (g : Name → Name) (s : σ) (a : Attr) :
    a.visitRefs (Writes.pure g) s = (a.rename g, s) := by
  cases a with
  | array items => simp only [visitRefs, rename, visitItems_pure g s items]
  | dict entries => simp only [visitRefs, rename, visitEntries_pure g s entries]
  | _ => rfl

theorem visitItems_pure (g : Name → Name) (s : σ) (items : List Attr) :
    visitItems (Writes.pure g) s items = (renameItems g items, s) := by
  cases items with
  | nil => rfl
  | cons item rest =>
    simp only [visitItems, renameItems, visitRefs_pure g s item, visitItems_pure g s rest]

theorem visitEntries_pure (g : Name → Name) (s : σ) (entries : List (Name × Attr)) :
    visitEntries (Writes.pure g) s entries = (renameEntries g entries, s) := by
  cases entries with
  | nil => rfl
  | cons entry rest =>
    simp only [visitEntries, renameEntries, visitRefs_pure g s entry.2,
      visitEntries_pure g s rest]

end

theorem inStep_refs : InStep refs (fun f s a => visitRefs f s a) rename SameFrame where
  visits f s a := (a.visitRefs_spec f s).1
  framed f s a := (a.visitRefs_spec f s).2
  told _ _ := SameFrame.eq_of_refs
  visit_pure := visitRefs_pure
  read_map := refs_rename
  map_map _ _ a := a.rename_rename fun _ _ => rfl

end Attr

def Param.tySpot : Spot Param TyId Name where
  get := Param.ty
  put p ty := { p with ty }
  rest := Param.name
  get_put _ _ := rfl
  rest_put _ _ := rfl
  told := by rintro ⟨⟩ ⟨⟩ ⟨⟩ ⟨⟩; rfl

def Field.tySpot : Spot Field TyId (Name × Span) where
  get := Field.ty
  put p ty := { p with ty }
  rest p := (p.name, p.span)
  get_put _ _ := rfl
  rest_put _ _ := rfl
  told := by rintro ⟨⟩ ⟨⟩ ⟨⟩ ⟨⟩; rfl

def Port.tySpot : Spot Port TyId (Name × Direction) where
  get := Port.ty
  put p ty := { p with ty }
  rest p := (p.name, p.direction)
  get_put _ _ := rfl
  rest_put _ _ := rfl
  told := by rintro ⟨⟩ ⟨⟩ ⟨⟩ ⟨⟩; rfl

namespace ClassHead

def visitTypes (f : Writes σ TyId) (s : σ) (c : ClassHead) : ClassHead × σ :=
  let (params, s) := Param.tySpot.visit f s c.params
  let (fields, s) := Field.tySpot.visit f s c.fields
  ({ c with params, fields }, s)

structure SameFrame (c c' : ClassHead) : Prop where
  name : c.name = c'.name
  params : c.params.map Param.tySpot.rest = c'.params.map Param.tySpot.rest
  fields : c.fields.map Field.tySpot.rest = c'.fields.map Field.tySpot.rest

theorem visitTypes_spec (f : Writes σ TyId) (s : σ) (c : ClassHead) :
    mapAccum f s c.types = ((c.visitTypes f s).1.types, (c.visitTypes f s).2) ∧
      c.SameFrame (c.visitTypes f s).1 := by
  obtain ⟨params, names⟩ := Param.tySpot.visit_spec f s c.params
  obtain ⟨fields, spans⟩ :=
    Field.tySpot.visit_spec f (Param.tySpot.visit f s c.params).2 c.fields
  refine ⟨?_, rfl, names, spans⟩
  have all : mapAccum f s c.types = _ :=
    mapAccum_append f (c.params.map Param.tySpot.get) (c.fields.map Field.tySpot.get) s
  rw [all, params, fields]
  rfl

theorem SameFrame.eq_of_types {c c' : ClassHead} (h : c.SameFrame c')
    (same : c.types = c'.types) : c = c' := by
  have count : c.params.length = c'.params.length := by
    simpa using congrArg List.length h.params
  obtain ⟨params, fields⟩ := List.append_inj same (by simpa using count)
  cases c
  cases c'
  simp only [mk.injEq]
  exact ⟨h.name, Param.tySpot.eq_of_map params h.params,
    Field.tySpot.eq_of_map fields h.fields⟩

theorem visitTypes_pure (g : TyId → TyId) (s : σ) (c : ClassHead) :
    c.visitTypes (Writes.pure g) s = (c.mapTypes g, s) := by
  simp only [visitTypes, Spot.visit_pure]
  rfl

end ClassHead

namespace ModuleHead

def visitTypes (f : Writes σ TyId) (s : σ) (m : ModuleHead) : ModuleHead × σ :=
  let (ports, s) := Port.tySpot.visit f s m.ports
  ({ m with ports }, s)

structure SameFrame (m m' : ModuleHead) : Prop where
  name : m.name = m'.name
  ports : m.ports.map Port.tySpot.rest = m'.ports.map Port.tySpot.rest

theorem visitTypes_spec (f : Writes σ TyId) (s : σ) (m : ModuleHead) :
    mapAccum f s m.types = ((m.visitTypes f s).1.types, (m.visitTypes f s).2) ∧
      m.SameFrame (m.visitTypes f s).1 := by
  obtain ⟨ports, rests⟩ := Port.tySpot.visit_spec f s m.ports
  exact ⟨ports, rfl, rests⟩

theorem SameFrame.eq_of_types {m m' : ModuleHead} (h : m.SameFrame m')
    (same : m.types = m'.types) : m = m' := by
  cases m
  cases m'
  simp only [mk.injEq]
  exact ⟨h.name, Port.tySpot.eq_of_map same h.ports⟩

theorem visitTypes_pure (g : TyId → TyId) (s : σ) (m : ModuleHead) :
    m.visitTypes (Writes.pure g) s = (m.mapTypes g, s) := by
  simp only [visitTypes, Spot.visit_pure]
  rfl

end ModuleHead

namespace OpKind

def visitTypes (f : Writes σ TyId) (s : σ) : OpKind → OpKind × σ
  | .classDef head =>
    let (head, s) := head.visitTypes f s
    (.classDef head, s)
  | .classStub head =>
    let (head, s) := head.visitTypes f s
    (.classStub head, s)
  | .moduleDef visibility head =>
    let (head, s) := head.visitTypes f s
    (.moduleDef visibility head, s)
  | .moduleStub head =>
    let (head, s) := head.visitTypes f s
    (.moduleStub head, s)
  | .object ofClass actuals =>
    let (actuals, s) := mapAccum f s actuals
    (.object ofClass actuals, s)
  | .generic opcode => (.generic opcode, s)

inductive SameFrame : OpKind → OpKind → Prop
  | classDef {head head' : ClassHead} (h : head.SameFrame head') :
      SameFrame (.classDef head) (.classDef head')
  | classStub {head head' : ClassHead} (h : head.SameFrame head') :
      SameFrame (.classStub head) (.classStub head')
  | moduleDef (visibility : Visibility) {head head' : ModuleHead} (h : head.SameFrame head') :
      SameFrame (.moduleDef visibility head) (.moduleDef visibility head')
  | moduleStub {head head' : ModuleHead} (h : head.SameFrame head') :
      SameFrame (.moduleStub head) (.moduleStub head')
  | object (ofClass : Name) {actuals actuals' : List TyId}
      (many : actuals.length = actuals'.length) :
      SameFrame (.object ofClass actuals) (.object ofClass actuals')
  | generic (opcode : Name) : SameFrame (.generic opcode) (.generic opcode)

theorem visitTypes_spec (f : Writes σ TyId) (s : σ) (kind : OpKind) :
    mapAccum f s kind.types = ((kind.visitTypes f s).1.types, (kind.visitTypes f s).2) ∧
      kind.SameFrame (kind.visitTypes f s).1 := by
  cases kind with
  | classDef head => exact (head.visitTypes_spec f s).imp_right .classDef
  | classStub head => exact (head.visitTypes_spec f s).imp_right .classStub
  | moduleDef visibility head => exact (head.visitTypes_spec f s).imp_right (.moduleDef visibility)
  | moduleStub head => exact (head.visitTypes_spec f s).imp_right .moduleStub
  | object ofClass actuals => exact ⟨rfl, .object ofClass (length_mapAccum f actuals s).symm⟩
  | generic opcode => exact ⟨rfl, .generic opcode⟩

theorem SameFrame.eq_of_types {kind kind' : OpKind} (h : kind.SameFrame kind')
    (same : kind.types = kind'.types) : kind = kind' := by
  cases h with
  | classDef h => exact congrArg OpKind.classDef (h.eq_of_types same)
  | classStub h => exact congrArg OpKind.classStub (h.eq_of_types same)
  | moduleDef visibility h => exact congrArg (OpKind.moduleDef visibility) (h.eq_of_types same)
  | moduleStub h => exact congrArg OpKind.moduleStub (h.eq_of_types same)
  | object ofClass many => exact congrArg (OpKind.object ofClass) same
  | generic opcode => rfl

theorem visitTypes_pure (g : TyId → TyId) (s : σ) (kind : OpKind) :
    kind.visitTypes (Writes.pure g) s = (kind.mapTypes g, s) := by
  cases kind <;>
    simp only [visitTypes, mapTypes, ClassHead.visitTypes_pure, ModuleHead.visitTypes_pure,
      mapAccum_pure]

theorem mapTypes_mapTypes (g h : TyId → TyId) (kind : OpKind) :
    (kind.mapTypes g).mapTypes h = kind.mapTypes (h ∘ g) := by
  cases kind <;> simp [mapTypes, ClassHead.mapTypes, ModuleHead.mapTypes]

end OpKind

namespace Node

def visitTypes (f : Writes σ TyId) (s : σ) (n : Node) : Node × σ :=
  let (results, s) := mapAccum f s n.results
  let (kind, s) := n.kind.visitTypes f s
  ({ n with kind, results }, s)

/-- Two operations differ in nothing but the types that they mention. -/
structure SameButTypes (n n' : Node) : Prop where
  kind : n.kind.SameFrame n'.kind
  span : n.span = n'.span
  attrs : n.attrs = n'.attrs
  results : n.results.length = n'.results.length

theorem inStep_types :
    InStep types (fun f s n => visitTypes f s n) mapTypes SameButTypes where
  visits f s n := by
    rw [types, mapAccum_append, (n.kind.visitTypes_spec f _).1]
    rfl
  framed f s n := ⟨(n.kind.visitTypes_spec f _).2, rfl, rfl, (length_mapAccum f n.results s).symm⟩
  told n n' frame same := by
    obtain ⟨results, listed⟩ := List.append_inj same frame.results
    cases n
    cases n'
    simp only [mk.injEq]
    exact ⟨frame.kind.eq_of_types listed, frame.span, frame.attrs, results⟩
  visit_pure g s n := by
    simp only [visitTypes, mapAccum_pure, OpKind.visitTypes_pure]
    rfl
  read_map := types_mapTypes
  map_map g h n := by
    simp only [mapTypes, OpKind.mapTypes_mapTypes, List.map_map]

def visitRefs (f : Writes σ Name) (s : σ) (n : Node) : Node × σ :=
  let (attrs, s) := Attr.visitEntries f s n.attrs
  ({ n with attrs }, s)

structure SameButRefs (n n' : Node) : Prop where
  kind : n.kind = n'.kind
  span : n.span = n'.span
  attrs : Attr.SameEntries n.attrs n'.attrs
  results : n.results = n'.results

theorem refs_eq (n : Node) : n.refs = Attr.refsOfEntries n.attrs := by
  rw [refs]
  induction n.attrs with
  | nil => rfl
  | cons entry rest ih => rw [List.flatMap_cons, ih, Attr.refsOfEntries]

theorem mapRefs_eq (g : Name → Name) (n : Node) :
    n.mapRefs g = { n with attrs := Attr.renameEntries g n.attrs } := by
  rw [mapRefs]
  congr 1
  induction n.attrs with
  | nil => rfl
  | cons entry rest ih => rw [List.map_cons, ih, Attr.renameEntries]

theorem inStep_refs : InStep refs (fun f s n => visitRefs f s n) mapRefs SameButRefs where
  visits f s n := by
    rw [refs_eq, refs_eq]
    exact (Attr.visitEntries_spec f s n.attrs).1
  framed f s n := ⟨rfl, rfl, (Attr.visitEntries_spec f s n.attrs).2, rfl⟩
  told n n' frame same := by
    rw [refs_eq, refs_eq] at same
    cases n
    cases n'
    simp only [mk.injEq]
    exact ⟨frame.kind, frame.span, frame.attrs.eq_of_refs same, frame.results⟩
  visit_pure g s n := by simp only [visitRefs, Attr.visitEntries_pure, mapRefs_eq]
  read_map := refs_mapRefs
  map_map g h n := by
    have values : Attr.renameEntries h (Attr.renameEntries g n.attrs) =
        Attr.renameEntries (h ∘ g) n.attrs :=
      Attr.renameEntries_renameEntries n.attrs fun _ _ => rfl
    simp only [mapRefs_eq, values]

end Node

/-- What is read in operations, in attributes and in types is what is written there: the same
places, in the same order, and nothing else. So it is for types in a store that finds ids in a
table, where 32 bits can count them. -/
theorem readers_and_writers_in_step :
    InStep Node.types (fun f s n => n.visitTypes f s) Node.mapTypes Node.SameButTypes ∧
    InStep Attr.refs (fun f s a => a.visitRefs f s) Attr.rename Attr.SameFrame ∧
    InStep Node.refs (fun f s n => n.visitRefs f s) Node.mapRefs Node.SameButRefs ∧
    ∀ (rename : Name → Option Name) (s : TyStore) (id : TyId) (names : List Name),
      s.classes id = .ok names → ∃ new s', s.substitute rename id = .ok (new, s') ∧
        s'.classes new = .ok (names.map (Name.under rename)) ∧
        (s'.size ≤ wordBound 32 → ∀ t : TyTable, t.Built → t.store = s →
          ∃ u, TyKeeper.answers t [.substitute rename id] = .ok ([.id new], u) ∧ u.Built ∧
            u.store.classes new = .ok (names.map (Name.under rename))) := by
  refine ⟨Node.inStep_types, Attr.inStep_refs, Node.inStep_refs, fun rename s id names read => ?_⟩
  obtain ⟨t, denotes⟩ := TyStore.exists_denotes_of_classesWithin read
  obtain ⟨new, s', written⟩ := TyStore.exists_substitute rename denotes
  have after := (TyStore.substituteWithin_denotes written denotes).classes_eq
  obtain rfl : t.classes = names := Except.ok.inj (denotes.classes_eq.symm.trans read)
  rw [TyTree.classes_rename] at after
  refine ⟨new, s', written, after, ?_⟩
  rintro countable t built rfl
  obtain ⟨u, asked, built', rfl⟩ := built.answers_substitute written countable
  exact ⟨u, asked, built', after⟩

def nestedAttr : Attr := .array [.int 3, .ref ⟨0⟩, .dict [(⟨5⟩, .ref ⟨0⟩), (⟨6⟩, .bool true)]]

def keyedTypes : TyStore :=
  ⟨#[.instanceOf ⟨0⟩, .instanceOf ⟨1⟩, .list ⟨1⟩, .map ⟨0⟩ ⟨2⟩, .tuple [⟨3⟩, ⟨0⟩]]⟩

def swapNames (name : Name) : Option Name :=
  if name = ⟨0⟩ then some ⟨1⟩ else if name = ⟨1⟩ then some ⟨0⟩ else none

/-- A visitor that numbers what it meets, and a swap of two classes. -/
theorem readers_and_writers_in_step_numbered :
    (nestedAttr.visitRefs (fun next _ => (⟨next⟩, next + 1)) 7).1.refs = [⟨7⟩, ⟨8⟩] ∧
      keyedTypes.classes ⟨4⟩ = .ok [⟨0⟩, ⟨1⟩, ⟨0⟩] ∧
      ∃ new s', keyedTypes.substitute swapNames ⟨4⟩ = .ok (new, s') ∧
        s'.classes new = .ok [⟨1⟩, ⟨0⟩, ⟨1⟩] := by
  obtain ⟨-, attrs, -, types⟩ := readers_and_writers_in_step
  have read : keyedTypes.classes ⟨4⟩ = .ok [⟨0⟩, ⟨1⟩, ⟨0⟩] := rfl
  have numbered := (attrs.visits (fun next _ => (⟨next⟩, next + 1)) 7 nestedAttr).symm
  obtain ⟨new, s', written, after, -⟩ := types swapNames keyedTypes ⟨4⟩ _ read
  exact ⟨congrArg Prod.fst numbered, read, new, s', written, after⟩

end Linkage
