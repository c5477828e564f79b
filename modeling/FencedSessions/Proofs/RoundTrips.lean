import FencedSessions.Breaker.Codec
import FencedSessions.Lock.Settings
import FencedSessions.Orchestration.Counters
import FencedSessions.Orchestration.Retry
import FencedSessions.Orchestration.Settings
import FencedSessions.Proofs.SessionText

/-! Every record reads back from its text: what is stored, what a step answers, what is emitted and
counted, and the settings. -/

namespace FencedSessions

open Json (Reader Record Reading Sketch)

namespace Json

mutual
/-- Has no floating-point numbers, and integers of 64 bits. -/
def Whole : Json → Prop
  | .null | .bool _ | .string _ => True
  | .number (.int n) => Integral n
  | .number (.float _) => False
  | .array items => WholeItems items
  | .object fields => WholeFields fields

def WholeItems : List Json → Prop
  | [] => True
  | v :: vs => v.Whole ∧ WholeItems vs

def WholeFields : List (String × Json) → Prop
  | [] => True
  | (_, v) :: fields => v.Whole ∧ WholeFields fields
end

mutual
theorem Whole.plain {j : Json} (h : j.Whole) : j.Plain := by
  match j with
  | .null | .bool _ | .string _ => trivial
  | .number (.int n) => exact readable_integer h
  | .array items => exact WholeItems.plain h
  | .object fields => exact WholeFields.plain h

theorem WholeItems.plain {vs : List Json} (h : WholeItems vs) : PlainItems vs := by
  match vs with
  | [] => trivial
  | v :: vs => exact ⟨Whole.plain h.1, WholeItems.plain h.2⟩

theorem WholeFields.plain {fields : List (String × Json)} (h : WholeFields fields) : PlainFields fields := by
  match fields with
  | [] => trivial
  | (k, v) :: fields => exact ⟨Whole.plain h.1, WholeFields.plain h.2⟩
end

theorem depth_le_depthItems {v : Json} {vs : List Json} (h : v ∈ vs) : v.depth ≤ depthItems vs := by
  induction h with
  | head vs => exact Nat.le_max_left ..
  | tail v' _ ih => exact Nat.le_trans ih (Nat.le_max_right ..)

theorem depth_le_depthFields {f : String × Json} {fields : List (String × Json)} (h : f ∈ fields) :
    f.2.depth ≤ depthFields fields := by
  induction h with
  | head fields => exact Nat.le_max_left ..
  | tail f' _ ih => exact Nat.le_trans ih (Nat.le_max_right ..)

/-- What stands in an array or an object is not as deep. -/
theorem depth_item {v : Json} {vs : List Json} (h : v ∈ vs) : v.depth < (array vs).depth :=
  Nat.lt_succ_of_le (depth_le_depthItems h)

theorem depth_field {f : String × Json} {fields : List (String × Json)} (h : f ∈ fields) :
    f.2.depth < (object fields).depth :=
  Nat.lt_succ_of_le (depth_le_depthFields h)

/-- Whether a value reads back from its text, in one line or indented. -/
structure Reader.ReadsBack {α : Type} (r : Reader α) (toJson : α → Json) (a : α) : Prop where
  dense : r.ofText (toJson a).text = .ok a
  indented : r.ofText (toJson a).indented = .ok a

theorem Reader.readsBack {α : Type} {r : Reader α} {toJson : α → Json} {a : α} (hplain : (toJson a).Plain)
    (hread : r fullRoom (.ofJson (toJson a)) = .ok a) : r.ReadsBack toJson a where
  dense := ofText_text hplain hread
  indented := by
    rw [ofText_indented hplain, hread]
    rfl

namespace Reader

theorem word32_nat {n : Nat} (h : n < Word.size32) (room : Nat) : word32 room (.ofJson (.nat n)) = .ok n := by
  simp [word32, natBelow, filterMap, integer, Json.nat, Sketch.ofJson, h]

theorem signed64_int {n : Int} (h : Word.isSigned64 n) (room : Nat) :
    signed64 room (.ofJson (.int n)) = .ok n := by
  simp [signed64, filterMap, integer, Json.int, Sketch.ofJson, h]

theorem string_ofJson (s : String) (room : Nat) : string room (.ofJson (.string s)) = .ok s := rfl

theorem bool_ofJson (b : Bool) (room : Nat) : bool room (.ofJson (.bool b)) = .ok b := rfl

theorem members_map {α : Type} {r : Reader α} {f : α → Json} {fields : List (String × α)} {room : Nat}
    (h : ∀ e ∈ fields, r room (.ofJson (f e.2)) = .ok e.2) (i : Nat) :
    members r room i (Sketch.ofFields (fields.map fun e => (e.1, f e.2))) = .ok fields := by
  induction fields generalizing i with
  | nil => rfl
  | cons e fields ih =>
    have he := h e (by simp)
    have hmore := ih (fun e' he' => h e' (by simp [he'])) (i + 1)
    simp [members, Sketch.ofFields, Sketch.name, lift_ok, he, hmore]

theorem dictionary_map {α : Type} {r : Reader α} {f : α → Json} {fields : List (String × α)} {room : Nat}
    (hroom : 1 < room) (hasc : Ascending fields)
    (h : ∀ e ∈ fields, r (room - 1) (.ofJson (f e.2)) = .ok e.2) :
    r.dictionary room (.ofJson (.object (fields.map fun e => (e.1, f e.2)))) = .ok fields := by
  simp [dictionary, Sketch.ofJson, Nat.not_le.mpr hroom, members_map h, closing, sortFields_ascending hasc]

/-- The one member of an object names the record that it holds. -/
theorem variant_object {α : Type} {named : String → Option (Reader α)} {r : Reader α} {kind : String}
    {j : Json} {a : α} {room : Nat} (hroom : 1 < room) (hnamed : named kind = some r)
    (hread : r (room - 1) (.ofJson j) = .ok a) :
    variant named room (.ofJson (.object [(kind, j)])) = .ok a := by
  simp [variant, Sketch.ofJson, Sketch.ofFields, Nat.not_le.mpr hroom, filterMap, string, hnamed, hread,
    onlyMember, closing]

section Tagged

variable {α : Type} {tag : String} {named : String → Option (Record α)} {fields : List (String × Json)}
  {room : Nat}

theorem surveyTagged_fields (hroom : 0 < room)
    (h : ∀ f ∈ fields, f.1 ≠ tag ∧ f.2.InOrder ∧ f.2.depth < room) (i : Nat) :
    surveyTagged tag named room i true (Sketch.ofFields fields) = .ok () := by
  induction fields generalizing i with
  | nil => rfl
  | cons f fields ih =>
    obtain ⟨hname, horder, hdepth⟩ := h f (by simp)
    have hmore := ih (fun g hg => h g (by simp [hg])) (i + 1)
    simp [surveyTagged, Sketch.ofFields, Sketch.name, hname, any_depth horder hroom, hdepth, hmore]

theorem filter_fields {p : Sketch × Sketch → Bool} (h : ∀ f ∈ fields, p (.string (.ok f.1), .ofJson f.2)) :
    (Sketch.ofFields fields).filter p = Sketch.ofFields fields := by
  induction fields with
  | nil => rfl
  | cons f fields ih =>
    rw [Sketch.ofFields, List.filter_cons_of_pos (h f (by simp)), ih fun g hg => h g (by simp [hg])]

/-- The tag of an object names the record that its other fields are. -/
theorem tagged_object {kind : String} {r : Record α} {a : α} (hroom : 1 < room) (hnamed : named kind = some r)
    (h : ∀ f ∈ fields, f.1 ≠ tag ∧ f.2.InOrder ∧ f.2.depth < room - 1)
    (hread : r.members (fullRoom + room) (Sketch.ofFields fields) none = .ok a) :
    tagged tag named room (.ofJson (.object ((tag, .string kind) :: fields))) = .ok a := by
  have hsurvey : surveyTagged tag named (room - 1) 1 true (Sketch.ofFields fields) = .ok () :=
    surveyTagged_fields (by omega) h 1
  have hkind (room : Nat) : string.filterMap named room (.string (.ok kind)) = .ok r := by
    simp [filterMap, string, hnamed]
  have hname : (Sketch.string (.ok tag)).name = .ok tag := rfl
  unfold tagged
  simp only [Sketch.ofJson, Sketch.ofFields, Nat.not_le.mpr hroom, if_false, surveyTagged, hname, if_true,
    Bool.false_eq_true, hkind, Reading.map_ok, hsurvey, closing, Record.findMember,
    Option.bind_some, Except.toOption, bind, Except.bind]
  rw [List.filter_cons_of_neg (by simp [hname]), filter_fields (fun f hf => ?_), hread]
  · rfl
  · simp [Sketch.name, (h f hf).1]

end Tagged

end Reader

namespace Record

/-- What a record makes of fields that stand in its own order, each read by its own reader. -/
inductive Reads (room : Nat) : {α : Type} → Record α → List (String × Json) → α → Prop
  | build {α : Type} (a : α) : Reads room (build a) [] a
  | field {α β : Type} {f : Record (α → β)} {g : α → β} {fields : List (String × Json)} {r : Reader α}
      {a : α} {j : Json} (name : String) (hf : Reads room f fields g) (ha : r room (.ofJson j) = .ok a) :
      Reads room (f.andField (field name r)) (fields ++ [(name, j)]) (g a)
  | fieldOr {α β : Type} {f : Record (α → β)} {g : α → β} {fields : List (String × Json)} {r : Reader α}
      {a : α} {j : Json} (name : String) (absent : α) (hf : Reads room f fields g)
      (ha : r room (.ofJson j) = .ok a) :
      Reads room (f.andField (fieldOr name r absent)) (fields ++ [(name, j)]) (g a)

variable {α : Type} {r : Record α} {fields : List (String × Json)} {a : α} {room : Nat}

theorem Reads.names (h : Reads room r fields a) : r.names = fields.map (·.1) := by
  induction h with
  | build a => rfl
  | field name hf ha ih => simp [andField, Record.field, ih]
  | fieldOr name absent hf ha ih => simp [andField, Record.fieldOr, ih]

theorem Reads.read (h : Reads room r fields a) {src : Source}
    (hsrc : ∀ f ∈ fields, ∃ place, ∀ i, src.find i f.1 = some (place, .ofJson f.2)) (i : Nat) :
    r.read room i src = .ok a := by
  induction h generalizing i with
  | build a => rfl
  | field name hf ha ih =>
    obtain ⟨place, hfind⟩ := hsrc _ (List.mem_append_right _ (List.mem_singleton_self _))
    have hbefore := ih (fun f hf => hsrc f (List.mem_append_left _ hf)) i
    simp [andField, Record.field, hbefore, hfind, ha]
  | fieldOr name absent hf ha ih =>
    obtain ⟨place, hfind⟩ := hsrc _ (List.mem_append_right _ (List.mem_singleton_self _))
    have hbefore := ih (fun f hf => hsrc f (List.mem_append_left _ hf)) i
    simp [andField, Record.fieldOr, hbefore, hfind, ha]

theorem findMember_fields (hnodup : (fields.map (·.1)).Nodup) {f : String × Json} (hf : f ∈ fields)
    (i : Nat) : ∃ place, findMember f.1 i (Sketch.ofFields fields) = some (place, .ofJson f.2) := by
  induction fields generalizing i with
  | nil => cases hf
  | cons g fields ih =>
    obtain ⟨hfresh, hnodup⟩ := List.nodup_cons.mp hnodup
    rcases List.mem_cons.mp hf with rfl | hf
    · exact ⟨i, by simp [findMember, Sketch.ofFields, Sketch.name]⟩
    · have hne : g.1 ≠ f.1 := fun he => hfresh (List.mem_map.mpr ⟨f, hf, he.symm⟩)
      obtain ⟨place, hfind⟩ := ih hnodup hf (i + 1)
      exact ⟨place, by simp [findMember, Sketch.ofFields, Sketch.name, hne, hfind]⟩

theorem survey_fields {names seen : List String} (hnodup : (fields.map (·.1)).Nodup)
    (h : ∀ f ∈ fields, f.1 ∈ names ∧ f.1 ∉ seen) (i : Nat) :
    survey names i seen (Sketch.ofFields fields) = .ok () := by
  induction fields generalizing i seen with
  | nil => rfl
  | cons f fields ih =>
    obtain ⟨hfresh, hnodup⟩ := List.nodup_cons.mp hnodup
    obtain ⟨hknown, hunseen⟩ := h f (by simp)
    have hmore : survey names (i + 1) (f.1 :: seen) (Sketch.ofFields fields) = .ok () := by
      refine ih hnodup (fun g hg => ?_) (i + 1)
      obtain ⟨hg', hseen⟩ := h g (by simp [hg])
      have hne : g.1 ≠ f.1 := fun he => hfresh (List.mem_map.mpr ⟨g, hg, he⟩)
      exact ⟨hg', by simp [hne, hseen]⟩
    simp [survey, Sketch.ofFields, Sketch.name, hknown, hunseen, hmore]

theorem Reads.members (h : Reads room r fields a) (hnodup : r.names.Nodup) :
    r.members room (Sketch.ofFields fields) none = .ok a := by
  rw [h.names] at hnodup
  have hread : r.read room 0 ⟨false, fun _ name => findMember name 0 (Sketch.ofFields fields),
      ⟨[(Sketch.ofFields fields).length + 1], .misfit⟩⟩ = .ok a :=
    h.read (fun f hf => (findMember_fields hnodup hf 0).imp fun place hfind _ => hfind) 0
  have hsurvey : survey r.names 0 [] (Sketch.ofFields fields) = .ok () := by
    rw [h.names]
    exact survey_fields hnodup (fun f hf => ⟨List.mem_map_of_mem hf, List.not_mem_nil⟩) 0
  simp [Record.members, hread, hsurvey, Reader.closing]

theorem Reads.reader (h : Reads (room - 1) r fields a) (hroom : 1 < room) (hnodup : r.names.Nodup) :
    r.reader room (.ofJson (.object fields)) = .ok a := by
  simp [Record.reader, Sketch.ofJson, Nat.not_le.mpr hroom, h.members hnodup]

end Record

end Json

namespace Session

variable {x : Session}

/-- In a session, payloads stand in three containers and metadata in two. -/
theorem depth_le {n : Nat} (h : x.toJson.depth ≤ n) :
    (∀ c ∈ x.checkpoints, c.payload.depth + 3 ≤ n) ∧ ∀ f ∈ x.metadata, f.2.depth + 2 ≤ n := by
  constructor
  · intro c hc
    have hpayload : c.payload.depth < c.toJson.depth :=
      Json.depth_field (f := ("payload", c.payload)) (.tail _ (.head _))
    have hcheckpoint := Json.depth_item (List.mem_map_of_mem (f := Checkpoint.toJson) hc)
    have hlist : (Json.array (x.checkpoints.map Checkpoint.toJson)).depth < x.toJson.depth :=
      Json.depth_field (f := ("checkpoints", _)) (.tail _ (.tail _ (.tail _ (.head _))))
    omega
  · intro f hf
    have hfield := Json.depth_field hf
    have hmetadata : (Json.object x.metadata).depth < x.toJson.depth :=
      Json.depth_field (f := ("metadata", .object x.metadata)) (by simp)
    omega

theorem readsBack (h : x.Storable) (hdepth : x.toJson.depth ≤ 127) : reader.ReadsBack toJson x := by
  obtain ⟨hpayloads, hmetadata⟩ := depth_le hdepth
  refine Reader.readsBack (plain_toJson h) (reader_roomy h (by decide) ?_ ?_)
  · intro c hc
    have hc := hpayloads c hc
    change c.payload.depth < 125
    omega
  · intro f hf
    have hf := hmetadata f hf
    change f.2.depth < 126
    omega

end Session

theorem StoredSession.readsBack {r : StoredSession} (hfence : r.fence.value < Word.size64)
    (h : r.session.Storable) (hdepth : r.toJson.depth ≤ 127) : reader.ReadsBack toJson r := by
  have hinner : r.session.toJson.depth ≤ 126 := by
    simp only [toJson, Json.depth, Json.depthFields] at hdepth
    omega
  obtain ⟨hpayloads, hmetadata⟩ := Session.depth_le hinner
  have hshallow : r.session.Shallow := by
    refine ⟨fun c hc => ?_, fun f hf => ?_⟩
    · have hc := hpayloads c hc
      omega
    · have hf := hmetadata f hf
      omega
  rcases reader_toJson hfence h with ⟨-, hread⟩ | ⟨hdeep, -⟩
  · exact Reader.readsBack (plain_toJson hfence h) hread
  · exact absurd hshallow hdeep

theorem KeyState.readsBack {k : KeyState} (h : k.Storable) : reader.ReadsBack toJson k :=
  Reader.readsBack (plain_toJson h) (reader_toJson h)

namespace Outcome

/-- Is within the ranges of its fields. -/
def Storable : Outcome → Prop
  | .success _ version => version < Word.size64
  | .invalidTransition _ | .conflict .. | .notFound | .transientError _ => True

theorem reader_toJson {o : Outcome} (h : o.Storable) {room : Nat} (hroom : 1 < room) :
    reader room (.ofJson o.toJson) = .ok o := by
  cases o with
  | success status version =>
    have hread : Record.Reads (Reader.fullRoom + room) _ _ (success status version) :=
      Record.Reads.build success
        |>.field "status" (Status.reader_toJson status _)
        |>.field "version" (Reader.word64_nat h _)
    refine Reader.tagged_object hroom rfl ?_ (hread.members (by decide))
    simp [Status.toJson, Json.nat, Json.InOrder, Json.depth]
    omega
  | invalidTransition reason =>
    have hread : Record.Reads (Reader.fullRoom + room) _ _ (invalidTransition reason) :=
      Record.Reads.build invalidTransition
        |>.field "reason" (Reader.string_ofJson reason _)
    refine Reader.tagged_object hroom rfl ?_ (hread.members (by decide))
    simp [Json.InOrder, Json.depth]
    omega
  | conflict retryable reason =>
    have hread : Record.Reads (Reader.fullRoom + room) _ _ (conflict retryable reason) :=
      Record.Reads.build conflict
        |>.field "retryable" (Reader.bool_ofJson retryable _)
        |>.field "reason" (Reader.string_ofJson reason _)
    refine Reader.tagged_object hroom rfl ?_ (hread.members (by decide))
    simp [Json.InOrder, Json.depth]
    omega
  | notFound => exact Reader.tagged_object hroom rfl (by simp) rfl
  | transientError reason =>
    have hread : Record.Reads (Reader.fullRoom + room) _ _ (transientError reason) :=
      Record.Reads.build transientError
        |>.field "reason" (Reader.string_ofJson reason _)
    refine Reader.tagged_object hroom rfl ?_ (hread.members (by decide))
    simp [Json.InOrder, Json.depth]
    omega

theorem plain_toJson {o : Outcome} (h : o.Storable) : o.toJson.Plain := by
  cases o with
  | success status version => exact ⟨trivial, trivial, Json.plain_nat h, trivial⟩
  | invalidTransition reason => exact ⟨trivial, trivial, trivial⟩
  | conflict retryable reason => exact ⟨trivial, trivial, trivial, trivial⟩
  | notFound => exact ⟨trivial, trivial⟩
  | transientError reason => exact ⟨trivial, trivial, trivial⟩

theorem readsBack {o : Outcome} (h : o.Storable) : reader.ReadsBack toJson o :=
  Reader.readsBack (plain_toJson h) (reader_toJson h (by decide))

end Outcome

theorem SessionEvent.reader_toJson (e : SessionEvent) (room : Nat) :
    reader room (.ofJson e.toJson) = .ok e := by
  cases e <;> rfl

namespace Event

/-- Is within the ranges of its fields. -/
def Storable : Event → Prop
  | .applied _ _ _ version time => version < Word.size64 ∧ time.Held
  | .checkpointed _ sequence version time => sequence < Word.size64 ∧ version < Word.size64 ∧ time.Held
  | .rehydrated _ _ quietMs time => Word.isSigned64 quietMs ∧ time.Held
  | .created _ time | .rejected _ _ time | .conflict _ _ time | .notFound _ time | .transient _ _ time =>
    time.Held

variable {e : Event} {room : Nat}

/-- The fields of each event are read under its name. -/
theorem reads_fields (h : e.Storable) :
    ∃ r, record? e.kind = some r ∧ r.names.Nodup ∧ Record.Reads room r e.fields e := by
  have hid (id : SessionId) := SessionId.reader_toJson id room
  have hreason (reason : String) := Reader.string_ofJson reason room
  have htime (time : Instant) (h : time.Held) := Instant.reader_toJson h room
  cases e with
  | created id time =>
    refine ⟨_, rfl, by decide, ?_⟩
    exact Record.Reads.build created |>.field _ (hid id) |>.field _ (htime time h)
  | applied id event status version time =>
    refine ⟨_, rfl, by decide, ?_⟩
    exact Record.Reads.build applied
      |>.field _ (hid id)
      |>.field _ (SessionEvent.reader_toJson event room)
      |>.field _ (Status.reader_toJson status room)
      |>.field _ (Reader.word64_nat h.1 room)
      |>.field _ (htime time h.2)
  | checkpointed id sequence version time =>
    refine ⟨_, rfl, by decide, ?_⟩
    exact Record.Reads.build checkpointed
      |>.field _ (hid id)
      |>.field _ (Reader.word64_nat h.1 room)
      |>.field _ (Reader.word64_nat h.2.1 room)
      |>.field _ (htime time h.2.2)
  | rejected id reason time =>
    refine ⟨_, rfl, by decide, ?_⟩
    exact Record.Reads.build rejected |>.field _ (hid id) |>.field _ (hreason reason) |>.field _ (htime time h)
  | conflict id reason time =>
    refine ⟨_, rfl, by decide, ?_⟩
    exact Record.Reads.build conflict |>.field _ (hid id) |>.field _ (hreason reason) |>.field _ (htime time h)
  | notFound id time =>
    refine ⟨_, rfl, by decide, ?_⟩
    exact Record.Reads.build notFound |>.field _ (hid id) |>.field _ (htime time h)
  | transient id reason time =>
    refine ⟨_, rfl, by decide, ?_⟩
    exact Record.Reads.build transient |>.field _ (hid id) |>.field _ (hreason reason) |>.field _ (htime time h)
  | rehydrated id previous quietMs time =>
    refine ⟨_, rfl, by decide, ?_⟩
    exact Record.Reads.build rehydrated
      |>.field _ (hid id)
      |>.field _ (Status.reader_toJson previous room)
      |>.field _ (Reader.signed64_int h.1 room)
      |>.field _ (htime time h.2)

theorem reader_toJson (h : e.Storable) (hroom : 2 < room) : reader room (.ofJson e.toJson) = .ok e := by
  obtain ⟨r, hrecord, hnames, hreads⟩ := reads_fields h
  refine Reader.variant_object (r := r.reader) (by omega) ?_ (hreads.reader (by omega) hnames)
  rw [hrecord]
  rfl

theorem plain_toJson (h : e.Storable) : e.toJson.Plain := by
  refine ⟨?_, trivial⟩
  cases e with
  | created id time => exact ⟨trivial, trivial, trivial⟩
  | applied id event status version time =>
    exact ⟨trivial, trivial, trivial, Json.plain_nat h.1, trivial, trivial⟩
  | checkpointed id sequence version time =>
    exact ⟨trivial, Json.plain_nat h.1, Json.plain_nat h.2.1, trivial, trivial⟩
  | rejected id reason time => exact ⟨trivial, trivial, trivial, trivial⟩
  | conflict id reason time => exact ⟨trivial, trivial, trivial, trivial⟩
  | notFound id time => exact ⟨trivial, trivial, trivial⟩
  | transient id reason time => exact ⟨trivial, trivial, trivial, trivial⟩
  | rehydrated id previous quietMs time =>
    have hquiet : Json.Integral quietMs := by
      have hword := h.1
      simp [Word.isSigned64] at hword
      unfold Json.Integral
      unfold Word.half64 at hword ⊢
      unfold Word.size64
      omega
    exact ⟨trivial, trivial, Json.readable_integer hquiet, trivial, trivial⟩

theorem readsBack (h : e.Storable) : reader.ReadsBack toJson e :=
  Reader.readsBack (plain_toJson h) (reader_toJson h (by decide))

end Event

namespace Counters

/-- Is within the ranges of its fields, with the statuses in order. -/
structure Storable (c : Counters) : Prop where
  created : c.created < Word.size64
  applied : c.applied < Word.size64
  checkpointed : c.checkpointed < Word.size64
  rejected : c.rejected < Word.size64
  conflicts : c.conflicts < Word.size64
  notFound : c.notFound < Word.size64
  transient : c.transient < Word.size64
  rehydrated : c.rehydrated < Word.size64
  byStatus : Json.Ascending c.byStatus ∧ ∀ e ∈ c.byStatus, e.2 < Word.size64

variable {c : Counters}

theorem reader_toJson (h : c.Storable) {room : Nat} (hroom : 2 < room) :
    reader room (.ofJson c.toJson) = .ok c := by
  have hbyStatus : Reader.word64.dictionary (room - 1)
      (.ofJson (.object (c.byStatus.map fun e => (e.1, .nat e.2)))) = .ok c.byStatus :=
    Reader.dictionary_map (by omega) h.byStatus.1 fun e he => Reader.word64_nat (h.byStatus.2 e he) _
  have hreads := Record.Reads.build Counters.mk
    |>.field "created" (Reader.word64_nat h.created (room - 1))
    |>.field "applied" (Reader.word64_nat h.applied _)
    |>.field "checkpointed" (Reader.word64_nat h.checkpointed _)
    |>.field "rejected" (Reader.word64_nat h.rejected _)
    |>.field "conflicts" (Reader.word64_nat h.conflicts _)
    |>.field "not_found" (Reader.word64_nat h.notFound _)
    |>.field "transient" (Reader.word64_nat h.transient _)
    |>.field "rehydrated" (Reader.word64_nat h.rehydrated _)
    |>.field "by_status" hbyStatus
  exact hreads.reader (by omega) (by decide)

theorem plain_toJson (h : c.Storable) : c.toJson.Plain := by
  have hbyStatus : Json.PlainFields (c.byStatus.map fun e => (e.1, .nat e.2)) := by
    refine Json.plainFields fun f hf => ?_
    obtain ⟨e, he, rfl⟩ := List.mem_map.mp hf
    exact Json.plain_nat (h.byStatus.2 e he)
  exact ⟨Json.plain_nat h.created, Json.plain_nat h.applied, Json.plain_nat h.checkpointed,
    Json.plain_nat h.rejected, Json.plain_nat h.conflicts, Json.plain_nat h.notFound, Json.plain_nat h.transient,
    Json.plain_nat h.rehydrated, hbyStatus, trivial⟩

theorem readsBack (h : c.Storable) : reader.ReadsBack toJson c :=
  Reader.readsBack (plain_toJson h) (reader_toJson h (by decide))

end Counters

/-! Settings. A text that holds every field is read whatever the defaults are. -/

namespace LockSettings

/-- Is within the ranges of its fields. -/
structure Storable (c : LockSettings) : Prop where
  pollInterval : c.pollIntervalMs < Word.size64
  leaseDuration : c.leaseDurationMs < Word.size64
  acquireTimeout : c.acquireTimeoutMs < Word.size64

theorem readsBack {c : LockSettings} (h : c.Storable) : reader.ReadsBack toJson c := by
  have hreads := Record.Reads.build LockSettings.mk
    |>.fieldOr "poll_interval_ms" 20 (Reader.word64_nat h.pollInterval 127)
    |>.fieldOr "lease_duration_ms" 30000 (Reader.word64_nat h.leaseDuration _)
    |>.fieldOr "acquire_timeout_ms" 5000 (Reader.word64_nat h.acquireTimeout _)
  exact Reader.readsBack ⟨Json.plain_nat h.pollInterval, Json.plain_nat h.leaseDuration,
    Json.plain_nat h.acquireTimeout, trivial⟩ (hreads.reader (by decide) (by decide))

end LockSettings

namespace BreakerSettings

/-- Is within the ranges of its fields. -/
structure Storable (c : BreakerSettings) : Prop where
  threshold : c.threshold < Word.size32
  cooldown : c.cooldownMs < Word.size64

theorem readsBack {c : BreakerSettings} (h : c.Storable) : reader.ReadsBack toJson c := by
  have hreads := Record.Reads.build BreakerSettings.mk
    |>.fieldOr "failure_threshold" 5 (Reader.word32_nat h.threshold 127)
    |>.fieldOr "cooldown_ms" 10000 (Reader.word64_nat h.cooldown _)
  have hthreshold : c.threshold < Word.size64 := Nat.lt_trans h.threshold (by decide)
  exact Reader.readsBack ⟨Json.plain_nat hthreshold, Json.plain_nat h.cooldown, trivial⟩
    (hreads.reader (by decide) (by decide))

end BreakerSettings

theorem OrchestratorSettings.readsBack {c : OrchestratorSettings} (h : c.stalenessMs < Word.size64)
    (holder : String) : (reader holder).ReadsBack toJson c := by
  have hreads := Record.Reads.build OrchestratorSettings.mk
    |>.fieldOr "holder_id" holder (Reader.string_ofJson c.holder 127)
    |>.fieldOr "staleness_threshold_ms" 300000 (Reader.word64_nat h _)
  have hnames : ["holder_id", "staleness_threshold_ms"].Nodup := by decide
  exact Reader.readsBack ⟨trivial, Json.plain_nat h, trivial⟩ (hreads.reader (by decide) hnames)

namespace HealthSettings

/-- Is within the ranges of its fields. -/
structure Storable (c : HealthSettings) : Prop where
  expectedInterval : c.expectedIntervalMs < Word.size64
  window : c.window < Word.size64

theorem readsBack {c : HealthSettings} (h : c.Storable) : reader.ReadsBack toJson c := by
  have hreads := Record.Reads.build HealthSettings.mk
    |>.fieldOr "expected_checkpoint_interval_ms" 60000 (Reader.word64_nat h.expectedInterval 127)
    |>.fieldOr "history_window" 10 (Reader.word64_nat h.window _)
  exact Reader.readsBack ⟨Json.plain_nat h.expectedInterval, Json.plain_nat h.window, trivial⟩
    (hreads.reader (by decide) (by decide))

end HealthSettings

namespace RetryPolicy

/-- Is within the ranges of its fields. -/
structure Storable (p : RetryPolicy) : Prop where
  maxRetries : p.maxRetries < Word.size32
  base : p.baseMs < Word.size64
  cap : p.capMs < Word.size64

theorem readsBack {p : RetryPolicy} (h : p.Storable) : reader.ReadsBack toJson p := by
  have hreads := Record.Reads.build RetryPolicy.mk
    |>.fieldOr "max_retries" 3 (Reader.word32_nat h.maxRetries 127)
    |>.fieldOr "backoff_base_ms" 50 (Reader.word64_nat h.base _)
    |>.fieldOr "backoff_max_ms" 2000 (Reader.word64_nat h.cap _)
    |>.fieldOr "jitter" true (Reader.bool_ofJson p.jitter _)
  have hmaxRetries : p.maxRetries < Word.size64 := Nat.lt_trans h.maxRetries (by decide)
  exact Reader.readsBack
    ⟨Json.plain_nat hmaxRetries, Json.plain_nat h.base, Json.plain_nat h.cap, trivial, trivial⟩
    (hreads.reader (by decide) (by decide))

end RetryPolicy

/-- Every record whose fields are within their ranges reads back from its text, in one line or indented:
sessions and stored sessions that nest at most 127 levels, key states, outcomes, events, counters and
settings. Free-form values without floating-point numbers are among those that a session may hold. -/
theorem records_readBack :
    (∀ x : Session, x.Storable → x.toJson.depth ≤ 127 → Session.reader.ReadsBack Session.toJson x) ∧
    (∀ r : StoredSession, r.fence.value < Word.size64 → r.session.Storable → r.toJson.depth ≤ 127 →
      StoredSession.reader.ReadsBack StoredSession.toJson r) ∧
    (∀ k : KeyState, k.Storable → KeyState.reader.ReadsBack KeyState.toJson k) ∧
    (∀ o : Outcome, o.Storable → Outcome.reader.ReadsBack Outcome.toJson o) ∧
    (∀ e : Event, e.Storable → Event.reader.ReadsBack Event.toJson e) ∧
    (∀ c : Counters, c.Storable → Counters.reader.ReadsBack Counters.toJson c) ∧
    (∀ c : LockSettings, c.Storable → LockSettings.reader.ReadsBack LockSettings.toJson c) ∧
    (∀ c : BreakerSettings, c.Storable → BreakerSettings.reader.ReadsBack BreakerSettings.toJson c) ∧
    (∀ (c : OrchestratorSettings) (holder : String), c.stalenessMs < Word.size64 →
      (OrchestratorSettings.reader holder).ReadsBack OrchestratorSettings.toJson c) ∧
    (∀ c : HealthSettings, c.Storable → HealthSettings.reader.ReadsBack HealthSettings.toJson c) ∧
    (∀ p : RetryPolicy, p.Storable → RetryPolicy.reader.ReadsBack RetryPolicy.toJson p) ∧
    ∀ j : Json, j.Whole → j.InOrder → j.Faithful :=
  ⟨fun _ => Session.readsBack, fun _ => StoredSession.readsBack, fun _ => KeyState.readsBack,
    fun _ => Outcome.readsBack, fun _ => Event.readsBack, fun _ => Counters.readsBack,
    fun _ => LockSettings.readsBack, fun _ => BreakerSettings.readsBack,
    fun _ holder h => OrchestratorSettings.readsBack h holder, fun _ => HealthSettings.readsBack,
    fun _ => RetryPolicy.readsBack, fun _ hwhole horder => ⟨hwhole.plain, horder⟩⟩

/-- A running session with a checkpoint and a change of status, at the ends of its ranges. -/
def fullSession : Session where
  id := .nil
  status := .running
  priority := 255
  checkpoints :=
    [⟨18446744073709551615, .object [("", .array [.int (-9223372036854775808), .null])], .last, "\"\n"⟩]
  history := [⟨.queued, .running, .first, false⟩]
  version := 18446744073709551615
  createdAt := .first
  updatedAt := .last
  metadata := [("a", .bool true), ("b", .object [("c", .nat 1), ("d", .array [])])]

theorem fullSession_storable : fullSession.Storable where
  priority := by decide
  checkpoints := by
    intro c hc
    obtain rfl := List.mem_singleton.mp hc
    have hint : Json.Integral (-9223372036854775808) := by decide
    refine ⟨by decide, ⟨Json.Whole.plain ⟨⟨hint, trivial, trivial⟩, trivial⟩, ?_⟩, by decide⟩
    exact ⟨List.pairwise_singleton _ _, ⟨trivial, trivial, trivial⟩, trivial⟩
  history := by decide
  version := by decide
  createdAt := by decide
  updatedAt := by decide
  metadata := by
    have hone : Json.Integral 1 := by decide
    refine ⟨by decide, fun f hf => ?_⟩
    rcases List.mem_cons.mp hf with rfl | hf
    · exact ⟨trivial, trivial⟩
    · obtain rfl := List.mem_singleton.mp hf
      refine ⟨Json.Whole.plain ⟨hone, trivial, trivial⟩, ?_, trivial, trivial, trivial⟩
      decide

theorem records_readBack_full :
    fullSession.toJson.depth ≤ 127 ∧ Session.reader.ReadsBack Session.toJson fullSession ∧
    StoredSession.reader.ReadsBack StoredSession.toJson ⟨⟨18446744073709551615⟩, fullSession⟩ ∧
    KeyState.reader.ReadsBack KeyState.toJson
      ⟨some ⟨"k", "h", ⟨2⟩, .last, 0⟩, ⟨3⟩, [⟨4, "h", .first, 0⟩], 18446744073709551615⟩ ∧
    Outcome.reader.ReadsBack Outcome.toJson (.success .orphaned 18446744073709551615) ∧
    Event.reader.ReadsBack Event.toJson (.rehydrated .nil .running (-9223372036854775808) .last) ∧
    Counters.reader.ReadsBack Counters.toJson { applied := 3, byStatus := [("FAILED", 1), ("RUNNING", 2)] } ∧
    LockSettings.reader.ReadsBack LockSettings.toJson ⟨0, 1, 18446744073709551615⟩ ∧
    BreakerSettings.reader.ReadsBack BreakerSettings.toJson ⟨4294967295, 18446744073709551615⟩ ∧
    (OrchestratorSettings.reader "h").ReadsBack OrchestratorSettings.toJson ⟨"", 0⟩ ∧
    HealthSettings.reader.ReadsBack HealthSettings.toJson ⟨0, 18446744073709551615⟩ ∧
    RetryPolicy.reader.ReadsBack RetryPolicy.toJson ⟨4294967295, 0, 0, false⟩ := by
  obtain ⟨hsession, hstored, hkey, houtcome, hevent, hcounters, hlock, hbreaker, horchestrator, hhealth,
    hretry, -⟩ := records_readBack
  have hdepth : fullSession.toJson.depth ≤ 127 := by decide
  have hstoredDepth : (StoredSession.toJson ⟨⟨18446744073709551615⟩, fullSession⟩).depth ≤ 127 := by
    decide
  refine ⟨hdepth, hsession _ fullSession_storable hdepth,
    hstored _ (by decide) fullSession_storable hstoredDepth, hkey _ (by decide), houtcome _ ?_,
    hevent _ ⟨by decide, by decide⟩, hcounters _ ?_, hlock _ ?_, hbreaker _ ?_,
    horchestrator _ _ (by decide), hhealth _ ?_, hretry _ ?_⟩
  · exact show 18446744073709551615 < Word.size64 by decide
  · constructor <;> decide
  · constructor <;> decide
  · constructor <;> decide
  · constructor <;> decide
  · constructor <;> decide

end FencedSessions
