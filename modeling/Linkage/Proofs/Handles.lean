import Linkage.Proofs.Counters
import Linkage.Proofs.Dumps
import Linkage.Proofs.Outcomes
/-!
Slots as a partial map with handles that are never used again. The map is told by a history alone:
what was asked and what was answered, from the empty map on. Whatever is asked of slots, and however
often they are written out and read back in between, the answers make up such a history, and what
the slots hold is what the map holds after it.
-/
namespace Linkage.Slots

variable {α : Type}

inductive Request (α : Type) where
  | alloc (a : α)
  | remove (handle : Nat)
  | write (handle : Nat) (a : α)
  /-- The slots are written out and read back. -/
  | reload

inductive Answer (α : Type) where
  | handle (handle : Nat)
  | removed (a : Option α)
  | done
  /-- What was written out cannot be read. -/
  | refused

def Request.value? : Request α → Option α
  | .alloc a | .write _ a => some a
  | .remove _ | .reload => none

def Request.isAlloc : Request α → Bool
  | .alloc _ => true
  | _ => false

def reload (encode : α → Json) (decoder : Json.Decoder α) (s : Slots α) : Option (Slots α) :=
  (Slots.decode decoder).read (s.encode encode).render

/-- Answers a request. Where there is nothing to be read back, the slots stay as they are. -/
def serve (encode : α → Json) (decoder : Json.Decoder α) (s : Slots α) :
    Request α → Checked (Answer α × Slots α)
  | .alloc a => do
    let (handle, s) ← s.add a
    return (.handle handle, s)
  | .remove handle => do
    let (a, s) ← s.take handle
    return (.removed a, s)
  | .write handle a => do
    return (.done, ← s.set handle a)
  | .reload =>
    match s.reload encode decoder with
    | some s => .ok (.done, s)
    | none => .ok (.refused, s)

/-! The map -/

abbrev Events (α : Type) := List (Request α × Answer α)

def given (events : Events α) : List Nat :=
  events.filterMap fun
    | (.alloc _, .handle handle) => some handle
    | _ => none

def heldAfter (handle : Nat) (held : Option α) : Request α × Answer α → Option α
  | (.alloc a, .handle new) => if new = handle then some a else held
  | (.write other a, _) => if other = handle then some a else held
  | (.remove other, _) => if other = handle then none else held
  | _ => held

/-- The value that was last stored under a handle, unless it was removed since. -/
def lastStored (events : Events α) (handle : Nat) : Option α :=
  events.foldl (heldAfter handle) none

/-- The handles that are in use, in the order they were given out, each with its value. -/
def livePairs (events : Events α) : List (Nat × α) :=
  (given events).filterMap fun handle => (lastStored events handle).map (handle, ·)

/-- What happens to a partial map that gives out a new handle for each value and never one of those
it gave out before. Only what is there can be written over. -/
inductive History : Events α → Prop
  | start : History []
  | alloc {events : Events α} (h : History events) (a : α) {handle : Nat}
      (fresh : handle ∉ given events) (word : handle < wordBound 32) :
      History (events ++ [(.alloc a, .handle handle)])
  | remove {events : Events α} (h : History events) (handle : Nat) :
      History (events ++ [(.remove handle, .removed (lastStored events handle))])
  | write {events : Events α} (h : History events) {handle : Nat} {old : α}
      (held : lastStored events handle = some old) (a : α) :
      History (events ++ [(.write handle a, .done)])
  | reload {events : Events α} (h : History events) : History (events ++ [(.reload, .done)])

theorem given_concat (events : Events α) (event : Request α × Answer α) :
    given (events ++ [event]) = given events ++ given [event] := List.filterMap_append

theorem not_mem_given_concat {events : Events α} {event : Request α × Answer α} {handle : Nat} :
    handle ∉ given (events ++ [event]) ↔ handle ∉ given events ∧ handle ∉ given [event] := by
  rw [given_concat, List.mem_append, not_or]

theorem lastStored_concat (events : Events α) (event : Request α × Answer α) (handle : Nat) :
    lastStored (events ++ [event]) handle = heldAfter handle (lastStored events handle) event := by
  rw [lastStored, List.foldl_append]
  rfl

theorem History.nodup_given {events : Events α} (h : History events) : (given events).Nodup := by
  induction h with
  | start => exact List.nodup_nil
  | alloc _ a fresh _ ih =>
    rw [given_concat]
    exact List.nodup_append.mpr ⟨ih, List.nodup_singleton _, fun handle old _ new same =>
      fresh (List.mem_singleton.mp new ▸ same ▸ old)⟩
  | remove _ _ ih | write _ _ _ ih | reload _ ih =>
    rw [given_concat]
    simpa [given] using ih

theorem History.lastStored_eq_none {events : Events α} (h : History events) {handle : Nat}
    (other : handle ∉ given events) : lastStored events handle = none := by
  induction h with
  | start => rfl
  | alloc _ a _ _ ih =>
    obtain ⟨before, new⟩ := not_mem_given_concat.mp other
    rw [lastStored_concat, heldAfter, if_neg fun same => new (by simp [given, same]), ih before]
  | remove _ gone ih =>
    rw [lastStored_concat, heldAfter, ih (not_mem_given_concat.mp other).1, ite_self]
  | write _ held a ih =>
    have vacant := ih (not_mem_given_concat.mp other).1
    rw [lastStored_concat, heldAfter, if_neg, vacant]
    rintro rfl
    rw [vacant] at held
    cases held
  | reload _ ih =>
    rw [lastStored_concat]
    exact ih (not_mem_given_concat.mp other).1

theorem heldAfter_eq_some {handle : Nat} {held : Option α} {event : Request α × Answer α} {a : α}
    (h : heldAfter handle held event = some a) : held = some a ∨ event.1.value? = some a := by
  unfold heldAfter at h
  split at h
  · split at h
    · exact .inr h
    · exact .inl h
  · split at h
    · exact .inr h
    · exact .inl h
  · split at h
    · cases h
    · exact .inl h
  · exact .inl h

theorem exists_value_of_lastStored {events : Events α} {handle : Nat} {a : α}
    (h : lastStored events handle = some a) : ∃ event ∈ events, event.1.value? = some a := by
  induction events using List.reverseRecOn with
  | nil => cases h
  | append_singleton events event ih =>
    rw [lastStored_concat] at h
    rcases heldAfter_eq_some h with before | brought
    · obtain ⟨found, hfound, value⟩ := ih before
      exact ⟨found, List.mem_append_left _ hfound, value⟩
    · exact ⟨event, by simp, brought⟩

/-! The slots -/

theorem toList_eq (s : Slots α) : s.toList =
    (List.range s.cells.size).filterMap fun slot => (s.get? slot).map (slot, ·) := by
  have numbered : s.cells.toList.zipIdx =
      (List.range s.cells.size).map fun slot => (s.get? slot, slot) := by
    refine List.ext_getElem (by simp) fun slot inside _ => ?_
    simp only [List.length_zipIdx, Array.length_toList] at inside
    simp [get?, inside]
  rw [toList, numbered, List.filterMap_map]
  rfl

theorem values_eq (s : Slots α) : s.values = s.toList.map Prod.snd := by
  have cells : s.cells.toList = s.cells.toList.zipIdx.map Prod.fst := by simp
  rw [values, cells, toList, List.filterMap_map, List.map_filterMap]
  refine List.filterMap_congr fun entry _ => ?_
  obtain ⟨cell, slot⟩ := entry
  cases cell <;> rfl

theorem exists_get?_of_mem_values {s : Slots α} {a : α} (h : a ∈ s.values) :
    ∃ slot, s.get? slot = some a := by
  rw [values_eq, toList_eq] at h
  obtain ⟨⟨slot, _⟩, hentry, rfl⟩ := List.mem_map.mp h
  obtain ⟨_, -, held⟩ := List.mem_filterMap.mp hentry
  obtain ⟨_, held, same⟩ := Option.map_eq_some_iff.mp held
  cases same
  exact ⟨slot, held⟩

theorem occupied_eq_length (s : Slots α) : s.occupied = s.toList.length := by
  rw [occupied, values_eq, List.length_map]

/-- A value that comes back as it was when the slots that hold it are written out and read again. -/
structure Storable (encode : α → Json) (decoder : Json.Decoder α) (a : α) : Prop where
  restores : Json.Decoder.Restores (Json.depthLimit + 1) decoder (encode a) a
  filled : encode a ≠ .null
  /-- Slots open two levels around each value. -/
  shallow : (encode a).levels + 2 ≤ Json.depthLimit

variable {encode : α → Json} {decoder : Json.Decoder α}

theorem reload_eq {s : Slots α} (live : s.live < wordBound 64)
    (each : ∀ a ∈ s.values, Storable encode decoder a) : s.reload encode decoder = some s := by
  have restored := Slots.restores (Json.depthLimit + 1) live fun a ha =>
    ⟨(each a ha).restores, (each a ha).filled⟩
  have within : (s.encode encode).levels ≤ Json.depthLimit :=
    levels_le.mpr fun a ha => Nat.le_of_add_le_add_right (each a ha).shallow
  rw [reload, Json.Decoder.read, Json.parse_render restored.plain]
  exact restored.reads Json.depthLimit (Nat.lt_succ_self _) within

theorem serve_reload {s back : Slots α} (h : s.reload encode decoder = some back) :
    s.serve encode decoder .reload = .ok (.done, back) := by
  rw [serve, h]

/-- Slots hold what the map holds, and the next handle is the number of those given out. -/
structure Tracks (events : Events α) (s : Slots α) : Prop where
  history : History events
  given : given events = List.range s.cells.size
  exact : s.Exact
  held : ∀ handle, s.get? handle = lastStored events handle

theorem tracks_empty : Tracks ([] : Events α) .empty :=
  ⟨.start, rfl, exact_empty, get?_empty⟩

namespace Tracks

variable {events : Events α} {s : Slots α}

theorem live_le (h : Tracks events s) : s.live ≤ s.cells.size := h.exact ▸ s.occupied_le_size

theorem alloc (h : Tracks events s) (room : s.cells.size + 1 < wordBound 32) (a : α) :
    s.add a = .ok (s.alloc a) ∧
      Tracks (events ++ [(.alloc a, .handle (s.alloc a).1)]) (s.alloc a).2 := by
  have live := h.live_le
  have count : s.live + 1 < wordBound 64 :=
    Nat.lt_trans (by omega : s.live + 1 < wordBound 32) (by decide)
  have fresh : (s.alloc a).1 ∉ Slots.given events := by simp [h.given, Slots.alloc]
  refine ⟨if_pos count, h.history.alloc a fresh (Nat.lt_of_succ_lt room), ?_, h.exact.alloc a,
    fun handle => ?_⟩
  · rw [given_concat, h.given]
    simp [Slots.given, Slots.alloc, List.range_succ]
  · rw [get?_alloc, lastStored_concat, heldAfter, h.held]
    simp only [Slots.alloc, eq_comm]

theorem remove (h : Tracks events s) (handle : Nat) :
    ∃ s', s.take handle = .ok (s.get? handle, s') ∧ s'.cells.size = s.cells.size ∧
      (∀ other, s'.get? other = if other = handle then none else s.get? other) ∧
      Tracks (events ++ [(.remove handle, .removed (s.get? handle))]) s' := by
  obtain ⟨s', taken, size, rest⟩ := h.exact.take_eq handle
  refine ⟨s', taken, size, rest, h.held handle ▸ h.history.remove handle, ?_,
    (spent_of_take taken).exact h.exact, fun other => ?_⟩
  · rw [given_concat, h.given, size]
    simp [Slots.given]
  · rw [rest, lastStored_concat, heldAfter, h.held]
    simp only [eq_comm]

theorem write (h : Tracks events s) {handle : Nat} {old : α} (held : s.get? handle = some old)
    (a : α) : s.set handle a = .ok (s.put handle a) ∧
      Tracks (events ++ [(.write handle a, .done)]) (s.put handle a) := by
  have used : s.contains handle = true := contains_iff.mpr ⟨old, held⟩
  refine ⟨if_pos used, h.history.write (h.held handle ▸ held) a, ?_,
    (spent_put s handle a).exact h.exact, fun other => ?_⟩
  · rw [given_concat, h.given, size_put]
    simp [Slots.given]
  · rw [get?_put, lastStored_concat, heldAfter, h.held]
    simp only [used, and_true, eq_comm]

theorem reload (h : Tracks events s) (room : s.cells.size < wordBound 32)
    (storable : ∀ event ∈ events, ∀ a ∈ event.1.value?, Storable encode decoder a) :
    s.reload encode decoder = some s ∧ Tracks (events ++ [(.reload, .done)]) s := by
  have live : s.live < wordBound 64 :=
    Nat.lt_trans (Nat.lt_of_le_of_lt h.live_le room) (by decide)
  refine ⟨reload_eq live fun a ha => ?_, h.history.reload, ?_, h.exact, fun handle => ?_⟩
  · obtain ⟨slot, held⟩ := exists_get?_of_mem_values ha
    obtain ⟨event, hevent, value⟩ := exists_value_of_lastStored ((h.held slot).symm.trans held)
    exact storable event hevent a value
  · rw [given_concat, h.given]
    simp [Slots.given]
  · rw [lastStored_concat, h.held]
    rfl

theorem serve_ends (h : Tracks events s) (r : Request α)
    (room : s.cells.size + [r].countP Request.isAlloc < wordBound 32)
    (storable : r = .reload → ∀ event ∈ events, ∀ a ∈ event.1.value?, Storable encode decoder a) :
    Ends (fun out => Tracks (events ++ [(r, out.1)]) out.2 ∧
        out.2.cells.size = s.cells.size + [r].countP Request.isAlloc)
      (fun fault => ∃ handle a, r = .write handle a ∧ lastStored events handle = none ∧
        fault = .vacant handle)
      (s.serve encode decoder r) := by
  cases r with
  | alloc a =>
    obtain ⟨answer, tracks⟩ := h.alloc room a
    rw [serve, answer]
    exact ⟨tracks, Array.size_push ..⟩
  | remove handle =>
    obtain ⟨s', answer, size, -, tracks⟩ := h.remove handle
    rw [serve, answer]
    exact ⟨tracks, size⟩
  | write handle a =>
    cases held : s.get? handle with
    | none =>
      have refused : s.set handle a = .error (.vacant handle) := if_neg (by simp [contains, held])
      rw [serve, refused]
      exact ⟨handle, a, rfl, (h.held handle).symm.trans held, rfl⟩
    | some old =>
      obtain ⟨answer, tracks⟩ := h.write held a
      rw [serve, answer]
      exact ⟨tracks, s.size_put handle a⟩
  | reload =>
    obtain ⟨same, tracks⟩ : s.reload encode decoder = some s ∧ _ := h.reload room (storable rfl)
    rw [serve_reload same]
    exact ⟨tracks, rfl⟩

end Tracks

/-- After some of the requests a value is to be written over another where there is none. -/
def Misplaced (encode : α → Json) (decoder : Json.Decoder α) (events : Events α) (s : Slots α)
    (requests : List (Request α)) (fault : Fault) : Prop :=
  ∃ before handle a after answers s', requests = before ++ .write handle a :: after ∧
    mapAccumM (serve encode decoder) s before = .ok (answers, s') ∧
    lastStored (events ++ before.zip answers) handle = none ∧ fault = .vacant handle

theorem Tracks.run_ends {events : Events α} {s : Slots α} (h : Tracks events s)
    (requests : List (Request α))
    (room : s.cells.size + requests.countP Request.isAlloc < wordBound 32)
    (storable : .reload ∈ requests → ∀ r ∈ events.map Prod.fst ++ requests,
      ∀ a ∈ r.value?, Storable encode decoder a) :
    Ends (fun out => Tracks (events ++ requests.zip out.1) out.2)
      (Misplaced encode decoder events s requests)
      (mapAccumM (serve encode decoder) s requests) := by
  induction requests generalizing events s with
  | nil =>
    change Tracks (events ++ []) s
    rwa [List.append_nil]
  | cons r rest ih =>
    have count : (r :: rest).countP Request.isAlloc =
        [r].countP Request.isAlloc + rest.countP Request.isAlloc := by
      rw [← List.countP_append]
      rfl
    have step : Ends _ _ (s.serve encode decoder r) := h.serve_ends r (by omega)
      fun same event hevent => storable (same ▸ List.mem_cons_self) event.1
        (List.mem_append_left _ (List.mem_map_of_mem hevent))
    rw [mapAccumM]
    cases served : s.serve encode decoder r with
    | error fault =>
      rw [served] at step
      obtain ⟨handle, a, rfl, vacant, rfl⟩ := step
      exact ⟨[], handle, a, rest, [], s, rfl, rfl, by simpa using vacant, rfl⟩
    | ok out =>
      obtain ⟨answer, s'⟩ := out
      rw [served] at step
      obtain ⟨tracks, size⟩ := step
      have later := ih tracks (by rw [size]; omega) fun reloads r' hr' => by
        refine storable (List.mem_cons_of_mem _ reloads) r' ?_
        simpa using hr'
      refine (later.imp (fun _ good => good) ?_).bind fun out good => ?_
      · rintro fault ⟨before, handle, a, after, answers, last, rfl, ran, vacant, rfl⟩
        refine ⟨r :: before, handle, a, after, answer :: answers, last, rfl, ?_, ?_, rfl⟩
        · exact mapAccumM_cons_eq_ok.mpr ⟨answer, s', answers, served, ran, rfl⟩
        · simpa using vacant
      · change Tracks (events ++ (r :: rest).zip (answer :: out.1)) out.2
        simpa using good

structure Refines (events : Events α) (s : Slots α) : Prop where
  history : History events
  /-- No handle is given out twice. -/
  fresh : (given events).Nodup
  held : ∀ handle, s.get? handle = lastStored events handle
  unknown : ∀ handle ∉ given events, s.get? handle = none
  /-- The counter is the number of handles in use. -/
  live : s.live = (livePairs events).length
  listed : s.toList = livePairs events
  /-- Taking out what is under a handle does not fail and leaves the others alone. -/
  removal : ∀ handle, ∃ s', s.take handle = .ok (s.get? handle, s') ∧
    ∀ other, s'.get? other = if other = handle then none else s.get? other

theorem Tracks.refines {events : Events α} {s : Slots α} (h : Tracks events s) :
    Refines events s := by
  have listed : s.toList = livePairs events := by
    rw [toList_eq, livePairs, h.given]
    simp only [h.held]
  refine ⟨h.history, h.history.nodup_given, h.held, fun handle other => ?_, ?_, listed,
    fun handle => ?_⟩
  · rw [h.held]
    exact h.history.lastStored_eq_none other
  · rw [← listed, ← occupied_eq_length]
    exact h.exact
  · obtain ⟨s', taken, -, rest, -⟩ := h.remove handle
    exact ⟨s', taken, rest⟩

end Linkage.Slots

namespace Linkage

/-- Whatever is asked of slots from the empty ones on, they answer as a partial map that never uses
a handle twice, and nothing but a write to a handle that is not in use stops them. -/
theorem slots_refine_map {α : Type} {encode : α → Json} {decoder : Json.Decoder α}
    (requests : List (Slots.Request α))
    (few : requests.countP Slots.Request.isAlloc < wordBound 32)
    (storable : .reload ∈ requests → ∀ r ∈ requests, ∀ a ∈ r.value?,
      Slots.Storable encode decoder a) :
    Ends (fun out => Slots.Refines (requests.zip out.1) out.2)
      (Slots.Misplaced encode decoder [] .empty requests)
      (mapAccumM (Slots.serve encode decoder) .empty requests) := by
  have room : (Slots.empty : Slots α).cells.size + requests.countP Slots.Request.isAlloc <
      wordBound 32 := by
    simpa [Slots.empty] using few
  exact (Slots.tracks_empty.run_ends requests room storable).imp (fun _ tracks => tracks.refines)
    fun _ stops => stops

theorem storable_text (s : String) : Slots.Storable .str Json.Decoder.text s where
  restores := Json.Decoder.restores_text s
  filled := by simp
  shallow := by simp [Json.levels, Json.depthLimit]

theorem Op.storable {op : Op} (fits : op.fits = true)
    (shallow : op.encode.levels + 2 ≤ Json.depthLimit) :
    Slots.Storable Op.encode Op.decode op where
  restores := Op.restores (Json.depthLimit + 1) fits
  filled := by simp [Op.encode]
  shallow := shallow

def vacatedRequests : List (Slots.Request String) :=
  [.alloc "keep", .alloc "drop", .remove 1, .reload, .write 0 "kept", .alloc "new"]

theorem slots_refine_map_vacated : ∃ answers s,
    mapAccumM (Slots.serve .str Json.Decoder.text) .empty vacatedRequests = .ok (answers, s) ∧
      s.toList = [(0, "kept"), (2, "new")] ∧ Slots.Refines (vacatedRequests.zip answers) s := by
  have read : (Slots.mk #[some "keep", none] 1).reload .str Json.Decoder.text =
      some (Slots.mk #[some "keep", none] 1) :=
    Slots.reload_eq (by decide) fun a _ => storable_text a
  have ran : mapAccumM (Slots.serve .str Json.Decoder.text) .empty vacatedRequests =
      .ok ([.handle 0, .handle 1, .removed (some "drop"), .done, .done, .handle 2],
        ⟨#[some "kept", none, some "new"], 2⟩) := by
    refine mapAccumM_cons_eq_ok.mpr ⟨_, ⟨#[some "keep"], 1⟩, _, rfl, ?_, rfl⟩
    refine mapAccumM_cons_eq_ok.mpr ⟨_, ⟨#[some "keep", some "drop"], 2⟩, _, rfl, ?_, rfl⟩
    refine mapAccumM_cons_eq_ok.mpr ⟨_, ⟨#[some "keep", none], 1⟩, _, rfl, ?_, rfl⟩
    refine mapAccumM_cons_eq_ok.mpr ⟨_, _, _, Slots.serve_reload read, ?_, rfl⟩
    refine mapAccumM_cons_eq_ok.mpr ⟨_, ⟨#[some "kept", none], 1⟩, _, rfl, ?_, rfl⟩
    exact mapAccumM_cons_eq_ok.mpr ⟨_, ⟨#[some "kept", none, some "new"], 2⟩, _, rfl, rfl, rfl⟩
  have few : vacatedRequests.countP Slots.Request.isAlloc < wordBound 32 := by decide
  -- under another name for the requests, nothing runs them a second time
  generalize vacatedRequests = requests at ran few ⊢
  have ends := slots_refine_map requests few fun _ _ _ a _ => storable_text a
  rw [ran] at ends
  exact ⟨_, _, ran, rfl, ends⟩

end Linkage
