import FencedSessions.Proofs.Nesting
import FencedSessions.Proofs.SessionIds
import FencedSessions.Repository.Directory

/-! The stored text of a session reads back as the session, if its payloads and metadata nest no
deeper than the reader has room for inside a record, and does not read back at all if they do. -/

namespace FencedSessions

open Json (Reader Record Reading Sketch)

namespace Json

/-- Comes back from a text as it was put into it, where there is room for it. -/
structure Faithful (j : Json) : Prop where
  plain : j.Plain
  inOrder : j.InOrder

theorem plainFields {fields : List (String × Json)} (h : ∀ f ∈ fields, f.2.Plain) :
    PlainFields fields := by
  induction fields with
  | nil => trivial
  | cons f fields ih => exact ⟨h f (by simp), ih fun g hg => h g (by simp [hg])⟩

namespace Reader

theorem word8_nat {n : Nat} (h : n < Word.size8) (room : Nat) :
    word8 room (.ofJson (.nat n)) = .ok n := by
  simp [word8, natBelow, filterMap, integer, Json.nat, Sketch.ofJson, h]

theorem items_error {α : Type} {r : Reader α} {f : α → Json} {as : List α} {room : Nat} {a : α}
    {e : Mishap} (ha : a ∈ as) (h : r room (.ofJson (f a)) = .error e) (i : Nat) :
    ∃ e, items r room i (Sketch.ofItems (as.map f)) = .error e := by
  induction as generalizing i with
  | nil => cases ha
  | cons b as ih =>
    rcases List.mem_cons.mp ha with rfl | ha
    · cases hmore : items r room (i + 1) (Sketch.ofItems (as.map f)) <;>
        simp [items, Sketch.ofItems, h, hmore, Reading.inPart, Reading.both, Except.map]
    · obtain ⟨e', hmore⟩ := ih ha (i + 1)
      cases hb : r room (.ofJson (f b)) <;>
        simp [items, Sketch.ofItems, hb, hmore, Reading.inPart, Reading.both, Except.map]

theorem list_error {α : Type} {r : Reader α} {f : α → Json} {as : List α} {room : Nat} {a : α}
    {e : Mishap} (hroom : 1 < room) (ha : a ∈ as) (h : r (room - 1) (.ofJson (f a)) = .error e) :
    ∃ e, r.list room (.ofJson (.array (as.map f))) = .error e := by
  obtain ⟨e', hitems⟩ := items_error ha h 0
  simp [list, Sketch.ofJson, Nat.not_le.mpr hroom, hitems, closing, Reading.both, Except.map]

section Dictionaries

variable {fields : List (String × Json)} {room : Nat}

theorem members_any (hroom : 0 < room) (h : ∀ f ∈ fields, f.2.InOrder ∧ f.2.depth < room) (i : Nat) :
    members any room i (Sketch.ofFields fields) = .ok fields := by
  induction fields generalizing i with
  | nil => rfl
  | cons f fields ih =>
    obtain ⟨horder, hdepth⟩ := h f (by simp)
    have hmore := ih (fun g hg => h g (by simp [hg])) (i + 1)
    simp [members, Sketch.ofFields, Sketch.name, lift_ok, any_depth horder hroom, hdepth,
      hmore]

theorem members_any_error {f : String × Json} (hroom : 0 < room) (hf : f ∈ fields)
    (horder : f.2.InOrder) (hdepth : ¬f.2.depth < room) (i : Nat) :
    ∃ e, members any room i (Sketch.ofFields fields) = .error e := by
  induction fields generalizing i with
  | nil => cases hf
  | cons g fields ih =>
    rcases List.mem_cons.mp hf with rfl | hf
    · cases hmore : members any room (i + 1) (Sketch.ofFields fields) <;>
        simp [members, Sketch.ofFields, Sketch.name, lift_ok, any_depth horder hroom,
          hdepth, hmore, Reading.inPart, Reading.both, Except.map]
    · obtain ⟨e, hmore⟩ := ih hf (i + 1)
      cases hg : any room (Sketch.ofJson g.2) <;>
        simp [members, Sketch.ofFields, Sketch.name, lift_ok, hg, hmore,
          Reading.inPart, Reading.both, Except.map]

theorem dictionary_any (hroom : 1 < room) (hasc : Ascending fields)
    (h : ∀ f ∈ fields, f.2.InOrder ∧ f.2.depth < room - 1) :
    any.dictionary room (.ofJson (.object fields)) = .ok fields := by
  simp [dictionary, Sketch.ofJson, Nat.not_le.mpr hroom, members_any (by omega) h, closing,
    sortFields_ascending hasc]

theorem dictionary_any_error {f : String × Json} (hroom : 1 < room) (hf : f ∈ fields)
    (horder : f.2.InOrder) (hdepth : ¬f.2.depth < room - 1) :
    ∃ e, any.dictionary room (.ofJson (.object fields)) = .error e := by
  obtain ⟨e, hmembers⟩ := members_any_error (by omega) hf horder hdepth 0
  simp [dictionary, Sketch.ofJson, Nat.not_le.mpr hroom, hmembers, closing, Reading.both, Except.map]

end Dictionaries

end Reader

end Json

theorem Status.reader_toJson (s : Status) (room : Nat) : Status.reader room (.ofJson s.toJson) = .ok s := by
  cases s <;> rfl

theorem SessionId.reader_toJson (id : SessionId) (room : Nat) :
    SessionId.reader room (.ofJson id.toJson) = .ok id := by
  simp [reader, toJson, Sketch.ofJson, Reader.filterMap, Reader.string, ofText_text]

namespace Transition

theorem reader_toJson {t : Transition} (h : t.time.Held) {room : Nat} (hroom : 1 < room) :
    reader room (.ofJson t.toJson) = .ok t := by
  have hsource := Status.reader_toJson t.source
  have htarget := Status.reader_toJson t.target
  have htime := Instant.reader_toJson h
  simp [reader, record, Record.reader, toJson, Sketch.ofJson, Sketch.ofFields, Nat.not_le.mpr hroom,
    Record.members, Record.build, Record.andField, Record.field, Record.fieldOr, Record.findMember,
    Sketch.name, Record.survey, Reader.closing, Reader.bool, hsource, htarget, htime]

theorem plain_toJson (t : Transition) : t.toJson.Plain := ⟨trivial, trivial, trivial, trivial, trivial⟩

end Transition

namespace Checkpoint

/-- Is within the ranges of its fields, and its payload has numbers that are read as they are written. -/
structure Storable (c : Checkpoint) : Prop where
  sequence : c.sequence < Word.size64
  payload : c.payload.Faithful
  createdAt : c.createdAt.Held

theorem reader_toJson {c : Checkpoint} (h : c.Storable) {room : Nat} (hroom : 1 < room) :
    reader room (.ofJson c.toJson) =
      if c.payload.depth < room - 1 then .ok c else .error ⟨[1, 0], .malformed⟩ := by
  have hsequence := Reader.word64_nat h.sequence
  have hpayload := Reader.any_depth h.payload.inOrder (show 0 < room - 1 by omega)
  have htime := Instant.reader_toJson h.createdAt
  by_cases hdepth : c.payload.depth < room - 1 <;>
    simp [reader, record, Record.reader, toJson, Sketch.ofJson, Sketch.ofFields, Nat.not_le.mpr hroom,
      Record.members, Record.build, Record.andField, Record.field, Record.findMember, Sketch.name,
      Record.survey, Reader.closing, Reader.string, hsequence, hpayload, hdepth, htime,
      Reading.inPart, Reading.both, Except.map]

theorem plain_toJson {c : Checkpoint} (h : c.Storable) : c.toJson.Plain :=
  ⟨Json.plain_nat h.sequence, h.payload.plain, trivial, trivial, trivial⟩

end Checkpoint

namespace Session

/-- Is within the ranges of its fields, and its values have numbers that are read as they are written. -/
structure Storable (x : Session) : Prop where
  priority : x.priority < Word.size8
  checkpoints : ∀ c ∈ x.checkpoints, c.Storable
  history : ∀ t ∈ x.history, t.time.Held
  version : x.version < Word.size64
  createdAt : x.createdAt.Held
  updatedAt : x.updatedAt.Held
  metadata : Json.Ascending x.metadata ∧ ∀ f ∈ x.metadata, f.2.Faithful

/-- Leaves room to read its values where they stand in a stored record: payloads below four other
containers, metadata below three. -/
structure Shallow (x : Session) : Prop where
  checkpoints : ∀ c ∈ x.checkpoints, c.payload.depth < 124
  metadata : ∀ f ∈ x.metadata, f.2.depth < 125

instance (x : Session) : Decidable x.Shallow :=
  decidable_of_iff ((∀ c ∈ x.checkpoints, c.payload.depth < 124) ∧ ∀ f ∈ x.metadata, f.2.depth < 125)
    ⟨fun ⟨a, b⟩ => ⟨a, b⟩, fun ⟨a, b⟩ => ⟨a, b⟩⟩

variable {x : Session}

/-- The checkpoints and the metadata decide what is read of a session: it is read with what they
are read as, or not at all. -/
theorem reader_parts (h : x.Storable) {room : Nat} (hroom : 3 < room) :
    let checkpoints := Checkpoint.reader.list (room - 1)
      (.array (Sketch.ofItems (x.checkpoints.map Checkpoint.toJson)) none)
    let metadata := Reader.any.dictionary (room - 1) (.object (Sketch.ofFields x.metadata) none)
    (∀ cs ms, checkpoints = .ok cs → metadata = .ok ms →
      reader room (.ofJson x.toJson) = .ok { x with checkpoints := cs, metadata := ms }) ∧
    ((∃ e, checkpoints = .error e) ∨ (∃ e, metadata = .error e) →
      ∃ e, reader room (.ofJson x.toJson) = .error e) := by
  have hid := SessionId.reader_toJson x.id
  have hstatus := Status.reader_toJson x.status
  have hpriority := Reader.word8_nat h.priority
  have hhistory : Transition.reader.list (room - 1)
      (.array (Sketch.ofItems (x.history.map Transition.toJson)) none) = .ok x.history :=
    Reader.list_map (by omega) fun t ht => Transition.reader_toJson (h.history t ht) (by omega)
  have hversion := Reader.word64_nat h.version
  have hcreated := Instant.reader_toJson h.createdAt
  have hupdated := Instant.reader_toJson h.updatedAt
  have henough : ¬room ≤ 1 := by omega
  intro checkpoints metadata
  have hcheckpoints : Checkpoint.reader.list (room - 1)
    (.array (Sketch.ofItems (x.checkpoints.map Checkpoint.toJson)) none) = checkpoints := rfl
  have hmetadata : Reader.any.dictionary (room - 1) (.object (Sketch.ofFields x.metadata) none) =
    metadata := rfl
  clear_value checkpoints metadata
  generalize hread : reader room (.ofJson x.toJson) = read
  simp only [reader, Record.reader, toJson, Sketch.ofJson, Sketch.ofFields, henough,
    ↓reduceIte, Record.members, fields, Record.andField, Record.build, Record.field,
    List.nil_append, List.length_nil, Nat.add_zero, List.cons_append, List.length_cons,
    Nat.zero_add, Nat.reduceAdd, Record.fieldOr, Record.findMember,
    Sketch.name, hid, Reading.inPart_ok, Reading.both_ok, String.reduceEq, hstatus, hpriority,
    hcheckpoints, hhistory, hversion, hcreated, hupdated, hmetadata, Record.survey,
    List.contains_eq_mem, List.mem_cons, List.not_mem_nil, or_self, or_false, decide_true,
    decide_false, Bool.false_eq_true, or_true, Reader.closing] at hread
  rw [← hread]
  cases checkpoints <;> cases metadata <;> simp [Reading.inPart, Reading.both, Except.map]

/-- A session is read where there is room for its payloads and metadata. -/
theorem reader_roomy (h : x.Storable) {room : Nat} (hroom : 3 < room)
    (hpayloads : ∀ c ∈ x.checkpoints, c.payload.depth < room - 3)
    (hmetadata : ∀ f ∈ x.metadata, f.2.depth < room - 2) : reader room (.ofJson x.toJson) = .ok x := by
  have hcheckpoints : Checkpoint.reader.list (room - 1)
      (.array (Sketch.ofItems (x.checkpoints.map Checkpoint.toJson)) none) = .ok x.checkpoints :=
    Reader.list_map (by omega) fun c hc => by
      rw [Checkpoint.reader_toJson (h.checkpoints c hc) (by omega)]
      exact if_pos (hpayloads c hc)
  have hmetadata : Reader.any.dictionary (room - 1) (.object (Sketch.ofFields x.metadata) none) =
      .ok x.metadata :=
    Reader.dictionary_any (by omega) h.metadata.1 fun f hf =>
      ⟨(h.metadata.2 f hf).inOrder, hmetadata f hf⟩
  exact (reader_parts h hroom).1 _ _ hcheckpoints hmetadata

theorem reader_shallow (h : x.Storable) (hx : x.Shallow) :
    reader 127 (.ofJson x.toJson) = .ok x :=
  reader_roomy h (by decide) hx.checkpoints hx.metadata

theorem reader_deep (h : x.Storable) (hx : ¬x.Shallow) :
    ∃ e, reader 127 (.ofJson x.toJson) = .error e := by
  apply (reader_parts h (by decide)).2
  by_cases hall : ∀ c ∈ x.checkpoints, c.payload.depth < 124
  · have hmetadata : ¬∀ f ∈ x.metadata, f.2.depth < 125 := fun hmeta => hx ⟨hall, hmeta⟩
    obtain ⟨f, hf⟩ := Classical.not_forall.mp hmetadata
    obtain ⟨hf, hdepth⟩ := Classical.not_imp.mp hf
    right
    exact Reader.dictionary_any_error (by decide) hf (h.metadata.2 f hf).inOrder hdepth
  · obtain ⟨c, hc⟩ := Classical.not_forall.mp hall
    obtain ⟨hc, hdepth⟩ := Classical.not_imp.mp hc
    have hread : Checkpoint.reader 125 (.ofJson c.toJson) = .error ⟨[1, 0], .malformed⟩ := by
      rw [Checkpoint.reader_toJson (h.checkpoints c hc) (by decide)]
      exact if_neg hdepth
    left
    exact Reader.list_error (by decide) hc hread

theorem plain_toJson (h : x.Storable) : x.toJson.Plain := by
  have hpriority : x.priority < Word.size64 := Nat.lt_trans h.priority (by decide)
  have hmetadata : Json.PlainFields x.metadata :=
    Json.plainFields fun f hf => (h.metadata.2 f hf).plain
  exact ⟨trivial, trivial, Json.plain_nat hpriority,
    Json.plainItems_map fun c hc => Checkpoint.plain_toJson (h.checkpoints c hc),
    Json.plainItems_map fun t _ => Transition.plain_toJson t, Json.plain_nat h.version, trivial, trivial,
    hmetadata, trivial⟩

end Session

namespace StoredSession

variable {r : StoredSession} (hfence : r.fence.value < Word.size64) (h : r.session.Storable)
include hfence h

theorem plain_toJson : r.toJson.Plain :=
  ⟨Json.plain_nat hfence, Session.plain_toJson h, trivial⟩

theorem reader_toJson :
    (r.session.Shallow ∧ reader Reader.fullRoom (.ofJson r.toJson) = .ok r) ∨
      (¬r.session.Shallow ∧ ∃ e, reader Reader.fullRoom (.ofJson r.toJson) = .error e) := by
  have hf := Fence.reader_toJson hfence
  by_cases hx : r.session.Shallow
  · have hsession := Session.reader_shallow h hx
    refine Or.inl ⟨hx, ?_⟩
    simp [reader, record, Record.reader, toJson, Sketch.ofJson, Sketch.ofFields, Reader.fullRoom,
      Record.members, Record.build, Record.andField, Record.field, Record.findMember, Sketch.name,
      Record.survey, Reader.closing, hf, hsession]
  · obtain ⟨e, hsession⟩ := Session.reader_deep h hx
    refine Or.inr ⟨hx, ?_⟩
    simp [reader, record, Record.reader, toJson, Sketch.ofJson, Sketch.ofFields, Reader.fullRoom,
      Record.members, Record.build, Record.andField, Record.field, Record.findMember, Sketch.name,
      Record.survey, Reader.closing, hf, hsession, Reading.inPart, Reading.both, Except.map]

end StoredSession

end FencedSessions
