import Linkage.Proofs.JsonText
import Linkage.Proofs.Restoring
import Linkage.Proofs.TyTables
/-!
Dumps of a design. The stored form of a design whose numbers fit into the words they are stored in
is read as the design, cell by cell and attribute by attribute. Only attributes open more than a
fixed number of levels, so they alone decide whether the text is read at all.
-/
namespace Linkage

open Json Json.Decoder

def Name.fits (n : Name) : Bool := n.index < wordBound 32

def TyId.fits (id : TyId) : Bool := id.index < wordBound 32

def OpId.fits (id : OpId) : Bool := id.index < wordBound 32

def Span.fits (s : Span) : Bool :=
  s.file.index < wordBound 32 && s.start < wordBound 32 && s.stop < wordBound 32

def Ty.fits : Ty → Bool
  | .word width _ => width < wordBound 32
  | .instanceOf name => name.fits
  | ty => ty.parts.all TyId.fits

namespace Attr

mutual

def fits : Attr → Bool
  | .int value => fitsInt64 value
  | .ref name => name.fits
  | .array items => fitsItems items
  | .dict entries => fitsEntries entries
  | .str _ | .bool _ => true

def fitsItems : List Attr → Bool
  | [] => true
  | item :: rest => fits item && fitsItems rest

def fitsEntries : List (Name × Attr) → Bool
  | [] => true
  | (key, value) :: rest => key.fits && fits value && fitsEntries rest

end

end Attr

def Port.fits (p : Port) : Bool := p.name.fits && p.ty.fits

def Param.fits (p : Param) : Bool := p.name.fits && p.ty.fits

def Field.fits (f : Field) : Bool := f.name.fits && f.ty.fits && f.span.fits

def ClassHead.fits (c : ClassHead) : Bool :=
  c.name.fits && c.params.all Param.fits && c.fields.all Field.fits

def ModuleHead.fits (m : ModuleHead) : Bool := m.name.fits && m.ports.all Port.fits

def OpKind.fits : OpKind → Bool
  | .classDef head | .classStub head => head.fits
  | .moduleDef _ head | .moduleStub head => head.fits
  | .object ofClass actuals => ofClass.fits && actuals.all TyId.fits
  | .generic opcode => opcode.fits

def Op.fits (op : Op) : Bool :=
  op.kind.fits && op.span.fits && Attr.fitsEntries op.attrs && op.results.all TyId.fits &&
    op.regions.all (·.all OpId.fits)

def LinkUnit.fits (u : LinkUnit) : Bool :=
  u.id.index < wordBound 32 && u.tag.all Name.fits && u.span.fits && u.ops.values.all Op.fits &&
    u.ops.live < wordBound 64 && u.body.all OpId.fits

/-- Every number of a design is one that its field can hold: positions and widths in 32 bits,
counts in 64, and integers of attributes in 64 with a sign. -/
def Design.fits (d : Design) : Bool := d.types.toList.all Ty.fits && d.units.all LinkUnit.fits

variable (limit : Nat)

theorem restores_word32 {n : Nat} (h : n < wordBound 32) : Restores limit word32 (.nat n) n :=
  restores_word h

theorem Name.restores {n : Name} (h : n.fits = true) : Restores limit Name.decode n.encode n :=
  (restores_word32 limit (of_decide_eq_true h)).map Name.mk

theorem TyId.restores {id : TyId} (h : id.fits = true) :
    Restores limit TyId.decode id.encode id :=
  (restores_word32 limit (of_decide_eq_true h)).map TyId.mk

theorem OpId.restores {id : OpId} (h : id.fits = true) :
    Restores limit OpId.decode id.encode id :=
  (restores_word32 limit (of_decide_eq_true h)).map OpId.mk

theorem UnitId.restores {id : UnitId} (h : id.index < wordBound 32) :
    Restores limit UnitId.decode (.nat id.index) id :=
  (restores_word32 limit h).map UnitId.mk

theorem FileId.restores {id : FileId} (h : id.index < wordBound 32) :
    Restores limit FileId.decode (.nat id.index) id :=
  (restores_word32 limit h).map FileId.mk

theorem restores_all {α : Type} {d : Decoder α} {encode : α → Json} {fits : α → Bool} {as : List α}
    (each : ∀ {a}, fits a = true → Restores limit d (encode a) a) (h : as.all fits = true) :
    Restores limit (many d) (.arr (as.map encode)) as :=
  restores_many fun a ha => each (List.all_eq_true.mp h a ha)

theorem Span.restores {s : Span} (h : s.fits = true) :
    Restores limit Span.decode s.encode s := by
  simp only [fits, Bool.and_eq_true, decide_eq_true_eq] at h
  have file := FileId.restores limit h.1.1
  have start := restores_word32 limit h.1.2
  have stop := restores_word32 limit h.2
  refine restores_record (by simp) (by simp [file.plain, start.plain, stop.plain])
    fun outer depth opened part => (opened _).trans ?_
  simp [part file (by simp), part start (by simp), part stop (by simp)]

theorem Ty.restores {ty : Ty} (h : ty.fits = true) : Restores limit Ty.decode ty.encode ty := by
  cases ty with
  | word width signed =>
    have width := restores_word32 limit (of_decide_eq_true h)
    have signed : Restores limit boolean (.bool signed) signed := restores_bool signed
    refine restores_case (restores_record (by simp) (by simp [width.plain, signed.plain])
      fun outer depth opened part => (opened _).trans ?_)
    simp [part width (by simp), part signed (by simp)]
  | list element =>
    simp only [fits, parts, List.all_cons, List.all_nil, Bool.and_true] at h
    have element := TyId.restores limit h
    refine restores_case (restores_record (by simp) (by simp [element.plain])
      fun outer depth opened part => (opened _).trans ?_)
    simp [part element (by simp)]
  | map key value =>
    simp only [fits, parts, List.all_cons, List.all_nil, Bool.and_true, Bool.and_eq_true] at h
    have key := TyId.restores limit h.1
    have value := TyId.restores limit h.2
    refine restores_case (restores_record (by simp) (by simp [key.plain, value.plain])
      fun outer depth opened part => (opened _).trans ?_)
    simp [part key (by simp), part value (by simp)]
  | tuple elements =>
    simp only [fits, parts] at h
    have elements := restores_all limit (TyId.restores limit) h
    refine restores_case (restores_record (by simp) (by simp [elements.plain])
      fun outer depth opened part => (opened _).trans ?_)
    simp [part elements (by simp)]
  | instanceOf name =>
    have name := Name.restores limit h
    refine restores_case (restores_record (by simp) (by simp [name.plain])
      fun outer depth opened part => (opened _).trans ?_)
    simp [part name (by simp)]
  | integer => exact ⟨trivial, fun _ _ _ => rfl⟩
  | bool => exact ⟨trivial, fun _ _ _ => rfl⟩
  | str => exact ⟨trivial, fun _ _ _ => rfl⟩
  | path => exact ⟨trivial, fun _ _ _ => rfl⟩
  | any => exact ⟨trivial, fun _ _ _ => rfl⟩

theorem TyStore.restores {s : TyStore} (h : s.toList.all Ty.fits = true) :
    Restores limit TyStore.decode s.encode s :=
  (restores_all limit (Ty.restores limit) h).map TyStore.ofList

namespace Attr

theorem restores_entry {d : Decoder Attr} {key : Name} {value : Attr} (hkey : key.fits = true)
    (hvalue : Restores limit d value.encode value) :
    Restores limit (decodeEntry d) (.obj [("name", key.encode), ("value", value.encode)])
      (key, value) := by
  have name := Name.restores limit hkey
  refine restores_record (by simp) (by simp [name.plain, hvalue.plain])
    fun outer depth opened part => (opened _).trans ?_
  simp [part name (by simp), part hvalue (by simp)]

theorem encodeItems_eq (items : List Attr) : encodeItems items = items.map encode := by
  induction items with
  | nil => rfl
  | cons item rest ih => rw [encodeItems, ih, List.map_cons]

theorem encodeEntries_eq (entries : List (Name × Attr)) :
    encodeEntries entries = entries.map fun entry =>
      .obj [("name", entry.1.encode), ("value", entry.2.encode)] := by
  induction entries with
  | nil => rfl
  | cons entry rest ih => rw [encodeEntries, ih, List.map_cons]

theorem fitsItems_iff {items : List Attr} :
    fitsItems items = true ↔ ∀ item ∈ items, item.fits = true := by
  induction items with
  | nil => simp [fitsItems]
  | cons item rest ih => simp [fitsItems, ih]

theorem fitsEntries_iff {entries : List (Name × Attr)} :
    fitsEntries entries = true ↔
      ∀ entry ∈ entries, entry.1.fits = true ∧ entry.2.fits = true := by
  induction entries with
  | nil => simp [fitsEntries]
  | cons entry rest ih => simp [fitsEntries, ih]

mutual

theorem plain_encode (a : Attr) : a.encode.Plain := by
  cases a with
  | array items => exact ⟨plain_encodeItems items, trivial⟩
  | dict entries => exact ⟨plain_encodeEntries entries, trivial⟩
  | _ => exact ⟨trivial, trivial⟩

theorem plain_encodeItems (items : List Attr) : PlainItems (encodeItems items) := by
  cases items with
  | nil => trivial
  | cons item rest => exact ⟨plain_encode item, plain_encodeItems rest⟩

theorem plain_encodeEntries (entries : List (Name × Attr)) :
    PlainItems (encodeEntries entries) := by
  cases entries with
  | nil => trivial
  | cons entry rest =>
    exact ⟨⟨trivial, plain_encode entry.2, trivial⟩, plain_encodeEntries rest⟩

end

theorem restores_entries {d : Decoder Attr} {entries : List (Name × Attr)}
    (h : fitsEntries entries = true)
    (each : ∀ {value : Attr}, value.fits = true → Restores limit d value.encode value) :
    Restores limit (many (decodeEntry d)) (.arr (encodeEntries entries)) entries := by
  rw [encodeEntries_eq]
  refine restores_many fun entry hentry => ?_
  obtain ⟨hkey, hvalue⟩ := fitsEntries_iff.mp h entry hentry
  exact restores_entry limit hkey (each hvalue)

/-- An attribute is restored at all depths below the fuel. Each level that its parts lie deeper
takes one from both. -/
theorem restores_within (fuel : Nat) {a : Attr} (h : a.fits = true) :
    Restores fuel (decodeWithin fuel) a.encode a := by
  induction fuel generalizing a with
  | zero => exact ⟨plain_encode a, fun _ below => absurd below (Nat.not_lt_zero _)⟩
  | succ fuel ih =>
    cases a with
    | int value => exact restores_case_succ ((restores_int h).map Attr.int)
    | str value => exact restores_case_succ ((restores_text value).map Attr.str)
    | bool value => exact restores_case_succ ((restores_bool value).map Attr.bool)
    | ref name => exact restores_case_succ ((Name.restores fuel h).map Attr.ref)
    | array items =>
      refine restores_case_succ (Restores.map ?_ Attr.array)
      rw [encodeItems_eq]
      exact restores_many fun item hitem => ih (fitsItems_iff.mp h item hitem)
    | dict entries =>
      exact restores_case_succ ((restores_entries fuel h ih).map Attr.dict)

theorem restores {a : Attr} (h : a.fits = true) : Restores limit decode a.encode a where
  plain := plain_encode a
  reads depth _ fits := (restores_within (depth + 1) h).reads depth (Nat.lt_succ_self _) fits

end Attr

theorem Visibility.restores (v : Visibility) : Restores limit Visibility.decode v.encode v := by
  cases v <;> exact ⟨trivial, fun _ _ _ => rfl⟩

theorem Direction.restores (d : Direction) : Restores limit Direction.decode d.encode d := by
  cases d <;> exact ⟨trivial, fun _ _ _ => rfl⟩

theorem Port.restores {p : Port} (h : p.fits = true) :
    Restores limit Port.decode p.encode p := by
  simp only [fits, Bool.and_eq_true] at h
  have name := Name.restores limit h.1
  have direction := Direction.restores limit p.direction
  have ty := TyId.restores limit h.2
  refine restores_record (by simp) (by simp [name.plain, direction.plain, ty.plain])
    fun outer depth opened part => (opened _).trans ?_
  simp [part name (by simp), part direction (by simp), part ty (by simp)]

theorem Param.restores {p : Param} (h : p.fits = true) :
    Restores limit Param.decode p.encode p := by
  simp only [fits, Bool.and_eq_true] at h
  have name := Name.restores limit h.1
  have ty := TyId.restores limit h.2
  refine restores_record (by simp) (by simp [name.plain, ty.plain])
    fun outer depth opened part => (opened _).trans ?_
  simp [part name (by simp), part ty (by simp)]

theorem Field.restores {f : Field} (h : f.fits = true) :
    Restores limit Field.decode f.encode f := by
  simp only [fits, Bool.and_eq_true] at h
  have name := Name.restores limit h.1.1
  have ty := TyId.restores limit h.1.2
  have span := Span.restores limit h.2
  refine restores_record (by simp) (by simp [name.plain, ty.plain, span.plain])
    fun outer depth opened part => (opened _).trans ?_
  simp [part name (by simp), part ty (by simp), part span (by simp)]

theorem ClassHead.restores {c : ClassHead} (h : c.fits = true) :
    Restores limit ClassHead.decode c.encode c := by
  simp only [fits, Bool.and_eq_true] at h
  have name := Name.restores limit h.1.1
  have params := restores_all limit (Param.restores limit) h.1.2
  have fields := restores_all limit (Field.restores limit) h.2
  refine restores_record (by simp) (by simp [name.plain, params.plain, fields.plain])
    fun outer depth opened part => (opened _).trans ?_
  simp [part name (by simp), part params (by simp), part fields (by simp)]

theorem OpKind.restores {kind : OpKind} (h : kind.fits = true) :
    Restores limit OpKind.decode kind.encode kind := by
  cases kind with
  | classDef head => exact restores_case ((ClassHead.restores limit h).map OpKind.classDef)
  | classStub head => exact restores_case ((ClassHead.restores limit h).map OpKind.classStub)
  | moduleDef visibility head =>
    simp only [fits, ModuleHead.fits, Bool.and_eq_true] at h
    have name := Name.restores limit h.1
    have visibility := Visibility.restores limit visibility
    have ports := restores_all limit (Port.restores limit) h.2
    refine restores_case (restores_record (by simp)
      (by simp [name.plain, visibility.plain, ports.plain])
      fun outer depth opened part => (opened _).trans ?_)
    simp [part name (by simp), part visibility (by simp), part ports (by simp)]
  | moduleStub head =>
    simp only [fits, ModuleHead.fits, Bool.and_eq_true] at h
    have name := Name.restores limit h.1
    have ports := restores_all limit (Port.restores limit) h.2
    refine restores_case (restores_record (by simp) (by simp [name.plain, ports.plain])
      fun outer depth opened part => (opened _).trans ?_)
    simp [part name (by simp), part ports (by simp)]
  | object ofClass actuals =>
    simp only [fits, Bool.and_eq_true] at h
    have ofClass := Name.restores limit h.1
    have actuals := restores_all limit (TyId.restores limit) h.2
    refine restores_case (restores_record (by simp) (by simp [ofClass.plain, actuals.plain])
      fun outer depth opened part => (opened _).trans ?_)
    simp [part ofClass (by simp), part actuals (by simp)]
  | generic opcode =>
    have opcode := Name.restores limit h
    refine restores_case (restores_record (by simp) (by simp [opcode.plain])
      fun outer depth opened part => (opened _).trans ?_)
    simp [part opcode (by simp)]

theorem Op.restores {op : Op} (h : op.fits = true) : Restores limit Op.decode op.encode op := by
  simp only [fits, Bool.and_eq_true] at h
  obtain ⟨⟨⟨⟨hkind, hspan⟩, hattrs⟩, hresults⟩, hregions⟩ := h
  have kind := OpKind.restores limit hkind
  have span := Span.restores limit hspan
  have attrs := Attr.restores_entries limit hattrs (Attr.restores limit)
  have results := restores_all limit (TyId.restores limit) hresults
  have regions := restores_all limit (restores_all limit (OpId.restores limit)) hregions
  refine restores_record (by simp)
    (by simp [kind.plain, span.plain, attrs.plain, results.plain, regions.plain])
    fun outer depth opened part => (opened _).trans ?_
  simp [part kind (by simp), part span (by simp), part attrs (by simp), part results (by simp),
    part regions (by simp)]

theorem Slots.restores {α : Type} {d : Decoder α} {encode : α → Json} {s : Slots α}
    (hlive : s.live < wordBound 64)
    (each : ∀ a ∈ s.values, Restores limit d (encode a) a ∧ encode a ≠ .null) :
    Restores limit (Slots.decode d) (s.encode encode) s := by
  have cells : Restores limit (many (option d)) (.arr (s.cells.toList.map (.ofOption encode)))
      s.cells.toList := by
    refine restores_many fun cell hcell => restores_option fun a ha => each a ?_
    exact List.mem_filterMap.mpr ⟨cell, hcell, ha⟩
  have live : Restores limit (word 64) (.nat s.live) s.live := restores_word hlive
  refine restores_record (by simp) (by simp [cells.plain, live.plain])
    fun outer depth opened part => (opened _).trans ?_
  simp [part cells (by simp), part live (by simp)]

theorem LinkUnit.restores {u : LinkUnit} (h : u.fits = true) :
    Restores limit LinkUnit.decode u.encode u := by
  simp only [fits, Bool.and_eq_true, decide_eq_true_eq] at h
  obtain ⟨⟨⟨⟨⟨hid, htag⟩, hspan⟩, hops⟩, hlive⟩, hbody⟩ := h
  have id := UnitId.restores limit hid
  have tag : Restores limit (option Name.decode) (.ofOption Name.encode u.tag) u.tag :=
    restores_option fun name hname => by
      rw [Option.mem_def.mp hname] at htag
      exact ⟨Name.restores limit htag, by simp [Name.encode, nat]⟩
  have span := Span.restores limit hspan
  have ops : Restores limit (Slots.decode Op.decode) (u.ops.encode Op.encode) u.ops :=
    Slots.restores limit hlive fun op hop =>
      ⟨Op.restores limit (List.all_eq_true.mp hops op hop), by simp [Op.encode]⟩
  have body := restores_all limit (OpId.restores limit) hbody
  refine restores_record (by simp)
    (by simp [id.plain, tag.plain, span.plain, ops.plain, body.plain])
    fun outer depth opened part => (opened _).trans ?_
  have read := part tag (by simp)
  simp only [required, Option.bind_some] at read
  simp [part id (by simp), read, part span (by simp), part ops (by simp), part body (by simp)]

theorem Design.restores {d : Design} (h : d.fits = true) :
    Restores limit Design.decode d.encode d := by
  simp only [fits, Bool.and_eq_true] at h
  have types := TyStore.restores limit h.1
  have units := restores_all limit (LinkUnit.restores limit) h.2
  refine restores_record (by simp) (by simp [types.plain, units.plain])
    fun outer depth opened part => (opened _).trans ?_
  simp [part types (by simp), part units (by simp)]

/-! Levels -/

theorem levels_arr_le {α : Type} {encode : α → Json} {as : List α} {n : Nat} :
    (Json.arr (as.map encode)).levels ≤ n + 1 ↔ ∀ a ∈ as, (encode a).levels ≤ n := by
  simp [levels, levelsOfItems_le]

theorem levels_obj_le {fields : List (String × Json)} {n : Nat} :
    (Json.obj fields).levels ≤ n + 1 ↔ ∀ field ∈ fields, field.2.levels ≤ n := by
  simp [levels, levelsOfFields_le]

theorem TyId.levels_all (ids : List TyId) : (Json.arr (ids.map TyId.encode)).levels ≤ 1 :=
  levels_arr_le.mpr fun _ _ => Nat.le_refl 0

theorem OpId.levels_all (ids : List OpId) : (Json.arr (ids.map OpId.encode)).levels ≤ 1 :=
  levels_arr_le.mpr fun _ _ => Nat.le_refl 0

@[simp] theorem Name.levels_encode (n : Name) : n.encode.levels = 0 := rfl

@[simp] theorem TyId.levels_encode (id : TyId) : id.encode.levels = 0 := rfl

@[simp] theorem Json.levels_nat (n : Nat) : (Json.nat n).levels = 0 := rfl

@[simp] theorem Span.levels_encode (s : Span) : s.encode.levels = 1 := rfl

theorem Ty.levels_le (ty : Ty) : ty.encode.levels ≤ 3 := by
  cases ty with
  | tuple elements => simp [encode, Json.case, levels_obj_le, TyId.levels_all]
  | _ => simp [encode, Json.case, levels, levelsOfFields]

theorem TyStore.levels_le (s : TyStore) : s.encode.levels ≤ 4 :=
  levels_arr_le.mpr fun ty _ => ty.levels_le

theorem Visibility.levels_encode (v : Visibility) : v.encode.levels = 0 := by
  cases v <;> rfl

theorem Direction.levels_encode (d : Direction) : d.encode.levels = 0 := by
  cases d <;> rfl

theorem Port.levels_le (p : Port) : p.encode.levels ≤ 1 := by
  simp [encode, levels_obj_le, Direction.levels_encode]

theorem Port.levels_all (ports : List Port) : (Json.arr (ports.map Port.encode)).levels ≤ 2 :=
  levels_arr_le.mpr fun p _ => p.levels_le

theorem ClassHead.levels_le (c : ClassHead) : c.encode.levels ≤ 4 := by
  have params : (Json.arr (c.params.map Param.encode)).levels ≤ 2 :=
    levels_arr_le.mpr fun p _ => by simp [Param.encode, levels_obj_le]
  have fields : (Json.arr (c.fields.map Field.encode)).levels ≤ 3 :=
    levels_arr_le.mpr fun f _ => by simp [Field.encode, levels_obj_le]
  simp [encode, levels_obj_le, fields, Nat.le_succ_of_le params]

theorem OpKind.levels_le (kind : OpKind) : kind.encode.levels ≤ 5 := by
  cases kind with
  | classDef head => simp [encode, Json.case, levels_obj_le, head.levels_le]
  | classStub head => simp [encode, Json.case, levels_obj_le, head.levels_le]
  | moduleDef visibility head =>
    have ports := Nat.le_succ_of_le (Port.levels_all head.ports)
    simp [encode, Json.case, levels_obj_le, Visibility.levels_encode, ports]
  | moduleStub head =>
    have ports := Nat.le_succ_of_le (Port.levels_all head.ports)
    simp [encode, Json.case, levels_obj_le, ports]
  | object ofClass actuals =>
    have actuals : (Json.arr (actuals.map TyId.encode)).levels ≤ 3 :=
      Nat.le_trans (TyId.levels_all actuals) (by decide)
    simp [encode, Json.case, levels_obj_le, actuals]
  | generic opcode => simp [encode, Json.case, levels_obj_le]

variable {depth : Nat}

theorem Op.levels_le (deep : 3 ≤ depth) {op : Op} :
    op.encode.levels ≤ depth + 3 ↔ ∀ entry ∈ op.attrs, entry.2.encode.levels ≤ depth := by
  have kind : op.kind.encode.levels ≤ depth + 2 :=
    Nat.le_trans op.kind.levels_le (Nat.add_le_add_right deep 2)
  have results : (Json.arr (op.results.map TyId.encode)).levels ≤ depth + 2 :=
    Nat.le_trans (TyId.levels_all op.results) (by omega)
  have regions : (Json.arr (op.regions.map fun region => .arr (region.map OpId.encode))).levels ≤
      depth + 2 :=
    levels_arr_le.mpr fun region _ => Nat.le_trans (OpId.levels_all region) (by omega)
  simp [encode, levels_obj_le, levels_arr_le, kind, results, regions, Attr.encodeEntries_eq]

theorem Slots.levels_le {α : Type} {encode : α → Json} {s : Slots α} :
    (s.encode encode).levels ≤ depth + 2 ↔ ∀ a ∈ s.values, (encode a).levels ≤ depth := by
  have cell : ∀ o : Option α,
      (Json.ofOption encode o).levels ≤ depth ↔ ∀ a, o = some a → (encode a).levels ≤ depth := by
    intro o
    cases o with
    | none => simp [ofOption, levels]
    | some a => simp [ofOption]
  have cells : (Json.arr (s.cells.toList.map (.ofOption encode))).levels ≤ depth + 1 ↔
      ∀ a ∈ s.values, (encode a).levels ≤ depth := by
    simp only [levels_arr_le, cell, values, List.mem_filterMap, id_eq]
    constructor
    · rintro h a ⟨o, ho, filled⟩
      exact h o ho a filled
    · intro h o ho a filled
      exact h a ⟨o, ho, filled⟩
  simp [Slots.encode, levels_obj_le, cells]

theorem LinkUnit.levels_le (deep : 3 ≤ depth) {u : LinkUnit} :
    u.encode.levels ≤ depth + 6 ↔
      ∀ op ∈ u.ops.values, ∀ entry ∈ op.attrs, entry.2.encode.levels ≤ depth := by
  have tag : (Json.ofOption Name.encode u.tag).levels = 0 := by cases u.tag <;> rfl
  have body : (Json.arr (u.body.map OpId.encode)).levels ≤ depth + 5 :=
    Nat.le_trans (OpId.levels_all u.body) (by omega)
  simp [encode, levels_obj_le, tag, body, Slots.levels_le, Op.levels_le deep]

theorem Design.levels_le (deep : 3 ≤ depth) {d : Design} :
    d.encode.levels ≤ depth + 8 ↔
      ∀ u ∈ d.units, ∀ op ∈ u.ops.values, ∀ entry ∈ op.attrs, entry.2.encode.levels ≤ depth := by
  have types : d.types.encode.levels ≤ depth + 7 := Nat.le_trans d.types.levels_le (by omega)
  simp [encode, levels_obj_le, levels_arr_le, types, LinkUnit.levels_le deep]

/-- A design that is dumped comes back as it was, whatever its attributes are, as long as they open
no more levels than the eight around them leave. The table that is made of its types again is the
one that was dumped: whatever is asked of both, the answers are the same. -/
theorem Design.dump_reloads {d : Design} {table : TyTable} (h : d.fits = true)
    (shallow : ∀ u ∈ d.units, ∀ op ∈ u.ops.values, ∀ entry ∈ op.attrs,
      entry.2.encode.levels + 8 ≤ depthLimit)
    (built : table.Built) (stored : table.store = d.types) :
    ∃ reloaded, Design.decode.read d.encode.render = some reloaded ∧ reloaded = d ∧
      ∀ requests, TyKeeper.answers (TyTable.ofList reloaded.types.toList) requests =
        TyKeeper.answers table requests := by
  have within : d.encode.levels ≤ depthLimit :=
    (Design.levels_le (by decide : 3 ≤ 119)).mpr fun u hu op hop entry hentry =>
      Nat.le_of_add_le_add_right (shallow u hu op hop entry hentry)
  have restored := Design.restores (depthLimit + 1) h
  refine ⟨d, ?_, rfl, fun requests => ?_⟩
  · rw [Decoder.read, parse_render restored.plain]
    exact restored.reads depthLimit (Nat.lt_succ_self _) within
  · rw [← stored]
    exact congrArg (TyKeeper.answers · requests) built.ofList_eq

/-- A type that is stored twice, and another one interned over the second of them. -/
def patchedTable : TyTable := ((TyTable.ofList [.bool, .bool]).intern (.list ⟨1⟩)).2

def patchedDesign : Design where
  types := patchedTable.store
  units :=
    [{ id := ⟨0⟩
       tag := some ⟨0⟩
       span := .dummy
       ops := ⟨#[none, some {
         kind := .generic ⟨1⟩
         span := .dummy
         attrs := [(⟨2⟩, .array [.dict [(⟨3⟩, .int (-1))], .str "\"\n"])]
         results := [⟨2⟩]
         regions := [[]] }], 1⟩
       body := [⟨1⟩] }]

theorem Design.dump_reloads_patched :
    patchedDesign.fits = true ∧
      (∀ u ∈ patchedDesign.units, ∀ op ∈ u.ops.values, ∀ entry ∈ op.attrs,
        entry.2.encode.levels + 8 ≤ depthLimit) ∧
      patchedTable.Built ∧ patchedTable.store = patchedDesign.types ∧
      ∃ reloaded, Design.decode.read patchedDesign.encode.render = some reloaded ∧
        reloaded = patchedDesign ∧
        ∀ requests, TyKeeper.answers (TyTable.ofList reloaded.types.toList) requests =
          TyKeeper.answers patchedTable requests := by
  have fits : patchedDesign.fits = true := by decide
  have shallow : ∀ u ∈ patchedDesign.units, ∀ op ∈ u.ops.values, ∀ entry ∈ op.attrs,
      entry.2.encode.levels + 8 ≤ depthLimit := by decide
  have built : patchedTable.Built := .intern _ (.ofList _)
  exact ⟨fits, shallow, built, rfl, Design.dump_reloads fits shallow built rfl⟩

end Linkage
