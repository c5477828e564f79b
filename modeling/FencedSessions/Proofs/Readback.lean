import FencedSessions.Lease.DirectoryStore
import FencedSessions.Proofs.JsonText
import FencedSessions.Proofs.Moments

/-! The stored text of a key state reads back as the state that was stored, as long as its numbers
and times are within the ranges of their fields. -/

namespace FencedSessions

namespace Json

@[simp] theorem Reading.both_ok {α β : Type} (f : α → β) (a : α) :
    Reading.both (.ok f) (.ok a) = .ok (f a) := rfl

@[simp] theorem Reading.inPart_ok {α : Type} (i : Nat) (a : α) :
    Reading.inPart i (.ok a) = .ok a := rfl

@[simp] theorem Reading.map_ok {α β : Type} (f : α → β) (a : α) :
    Except.map f (.ok a : Reading α) = .ok (f a) := rfl

namespace Reader

theorem word64_nat {n : Nat} (h : n < Word.size64) (room : Nat) :
    word64 room (.ofJson (.nat n)) = .ok n := by
  simp [word64, natBelow, filterMap, integer, Json.nat, Sketch.ofJson, h]

theorem option_ofOption {α : Type} {r : Reader α} {f : α → Json} {o : Option α} {room : Nat}
    (h : ∀ a, o = some a → r room (.ofJson (f a)) = .ok a ∧ Sketch.ofJson (f a) ≠ .null) :
    r.option room (.ofJson (.ofOption f o)) = .ok o := by
  cases o with
  | none => rfl
  | some a =>
    obtain ⟨ha, hne⟩ := h a rfl
    simp only [option, ofOption]
    rw [ha, Reading.map_ok]

theorem items_map {α : Type} {r : Reader α} {f : α → Json} {as : List α} {room : Nat}
    (h : ∀ a ∈ as, r room (.ofJson (f a)) = .ok a) (i : Nat) :
    items r room i (Sketch.ofItems (as.map f)) = .ok as := by
  induction as generalizing i with
  | nil => rfl
  | cons a as ih =>
    have ha := h a (by simp)
    have has := ih (fun b hb => h b (by simp [hb])) (i + 1)
    simp [items, Sketch.ofItems, ha, has]

theorem list_map {α : Type} {r : Reader α} {f : α → Json} {as : List α} {room : Nat}
    (hroom : 1 < room) (h : ∀ a ∈ as, r (room - 1) (.ofJson (f a)) = .ok a) :
    r.list room (.ofJson (.array (as.map f))) = .ok as := by
  simp [list, Sketch.ofJson, Nat.not_le.mpr hroom, items_map h, closing]

end Reader

end Json

open Json (Reader Record Reading Sketch)

theorem Fence.reader_toJson {f : Fence} (h : f.value < Word.size64) (room : Nat) :
    Fence.reader room (.ofJson f.toJson) = .ok f := by
  unfold Fence.reader Fence.toJson
  rw [Reader.map, Reader.word64_nat h]
  rfl

theorem Json.plain_nat {n : Nat} (h : n < Word.size64) : (Json.nat n).Plain := by
  have hn : Json.Integral n := by
    unfold Json.Integral Word.half64
    omega
  exact Json.readable_integer hn

theorem Json.plainItems_map {α : Type} {f : α → Json} {as : List α} (h : ∀ a ∈ as, (f a).Plain) :
    PlainItems (as.map f) := by
  induction as with
  | nil => trivial
  | cons a as ih => exact ⟨h a (by simp), ih fun b hb => h b (by simp [hb])⟩

/-- Is within the ranges of its fields. -/
structure Lease.Storable (l : Lease) : Prop where
  fence : l.fence.value < Word.size64
  expiry : l.expiresAt.Held
  position : l.position < Word.size64

theorem Lease.reader_toJson {l : Lease} (h : l.Storable) {room : Nat} (hroom : 1 < room) :
    Lease.reader room (.ofJson l.toJson) = .ok l := by
  have hfence := Fence.reader_toJson h.fence
  have hexpiry := Instant.reader_toJson h.expiry
  have hposition := Reader.word64_nat h.position
  simp [Lease.reader, Lease.record, Record.reader, Lease.toJson, Sketch.ofJson, Sketch.ofFields,
    Nat.not_le.mpr hroom, Record.members, Record.build, Record.andField, Record.field,
    Record.findMember, Sketch.name, Record.survey, Reader.closing, Reader.string, hfence, hexpiry,
    hposition]

theorem Lease.plain_toJson {l : Lease} (h : l.Storable) : l.toJson.Plain :=
  ⟨trivial, trivial, Json.plain_nat h.fence, trivial, Json.plain_nat h.position, trivial⟩

instance (l : Lease) : Decidable l.Storable :=
  decidable_of_iff (l.fence.value < Word.size64 ∧ l.expiresAt.Held ∧ l.position < Word.size64)
    ⟨fun ⟨a, b, c⟩ => ⟨a, b, c⟩, fun ⟨a, b, c⟩ => ⟨a, b, c⟩⟩

structure Ticket.Storable (t : Ticket) : Prop where
  number : t.number < Word.size64
  deadline : t.deadline.Held
  position : t.position < Word.size64

instance (t : Ticket) : Decidable t.Storable :=
  decidable_of_iff (t.number < Word.size64 ∧ t.deadline.Held ∧ t.position < Word.size64)
    ⟨fun ⟨a, b, c⟩ => ⟨a, b, c⟩, fun ⟨a, b, c⟩ => ⟨a, b, c⟩⟩

theorem Ticket.reader_toJson {t : Ticket} (h : t.Storable) {room : Nat} (hroom : 1 < room) :
    Ticket.reader room (.ofJson t.toJson) = .ok t := by
  have hnumber := Reader.word64_nat h.number
  have hdeadline := Instant.reader_toJson h.deadline
  have hposition := Reader.word64_nat h.position
  simp [Ticket.reader, Ticket.record, Record.reader, Ticket.toJson, Sketch.ofJson, Sketch.ofFields,
    Nat.not_le.mpr hroom, Record.members, Record.build, Record.andField, Record.field,
    Record.findMember, Sketch.name, Record.survey, Reader.closing, Reader.string, hnumber,
    hdeadline, hposition]

theorem Ticket.plain_toJson {t : Ticket} (h : t.Storable) : t.toJson.Plain :=
  ⟨Json.plain_nat h.number, trivial, trivial, Json.plain_nat h.position, trivial⟩

namespace KeyState

structure Storable (k : KeyState) : Prop where
  lease : ∀ l ∈ k.lease, l.Storable
  lastFence : k.lastFence.value < Word.size64
  tickets : ∀ t ∈ k.tickets, t.Storable
  lastTicket : k.lastTicket < Word.size64

instance (k : KeyState) : Decidable k.Storable :=
  decidable_of_iff ((∀ l ∈ k.lease, l.Storable) ∧ k.lastFence.value < Word.size64 ∧
      (∀ t ∈ k.tickets, t.Storable) ∧ k.lastTicket < Word.size64)
    ⟨fun ⟨a, b, c, d⟩ => ⟨a, b, c, d⟩, fun ⟨a, b, c, d⟩ => ⟨a, b, c, d⟩⟩

theorem storable_empty : Storable {} := by decide

theorem reader_toJson {k : KeyState} (h : k.Storable) :
    reader Reader.fullRoom (.ofJson k.toJson) = .ok k := by
  have hlease : Lease.reader.option 127 (.ofJson (.ofOption Lease.toJson k.lease)) = .ok k.lease :=
    Reader.option_ofOption fun l hl =>
      ⟨Lease.reader_toJson (h.lease l hl) (by decide), by simp [Lease.toJson, Sketch.ofJson]⟩
  have hfence := Fence.reader_toJson h.lastFence
  have htickets : Ticket.reader.list 127 (.array (Sketch.ofItems (k.tickets.map Ticket.toJson)) none) =
      .ok k.tickets :=
    Reader.list_map (by decide) fun t ht => Ticket.reader_toJson (h.tickets t ht) (by decide)
  have hlast := Reader.word64_nat h.lastTicket
  simp [reader, record, Record.reader, toJson, Sketch.ofJson, Sketch.ofFields,
    Reader.fullRoom, Record.members, Record.build, Record.andField, Record.field, Record.optional,
    Record.findMember, Sketch.name, Record.survey, Reader.closing, hlease, hfence, htickets, hlast]

theorem plain_toJson {k : KeyState} (h : k.Storable) : k.toJson.Plain := by
  have hlease : (Json.ofOption Lease.toJson k.lease).Plain := by
    cases hl : k.lease with
    | none => trivial
    | some l => exact Lease.plain_toJson (h.lease l hl)
  have htickets : Json.PlainItems (k.tickets.map Ticket.toJson) :=
    Json.plainItems_map fun t ht => Ticket.plain_toJson (h.tickets t ht)
  exact ⟨hlease, Json.plain_nat h.lastFence, htickets, Json.plain_nat h.lastTicket, trivial⟩

end KeyState

/-- What is stored of a key is what was put there. -/
theorem DirectoryLeases.parse_text {k : KeyState} (h : k.Storable) :
    parse k.toJson.text = .ok k := by
  unfold parse
  rw [Reader.ofText_text (KeyState.plain_toJson h) (KeyState.reader_toJson h)]
  rfl

end FencedSessions
