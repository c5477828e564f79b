import FencedSessions.Proofs.Accepted
import FencedSessions.Proofs.Foreground
import FencedSessions.Proofs.SessionIds
import FencedSessions.Proofs.Twins

/-! Steps on different sessions commute over stores in memory: made one after the other, in either order, they
have the same outcomes and leave the same behind. The one that comes second finds its own session as if it came
first, only later on the timer. -/

namespace FencedSessions

open Site StepPhase

theorem MemoryRepository.keyed_after {m : MemoryRepository} (h : m.Keyed) (ops : List RepositoryOp) :
    (m.after ops).Keyed := by
  induction ops generalizing m with
  | nil => exact h
  | cons op ops ih => exact ih (h.run op)

/-- A step finds its session after a step on another session as it would have found it before. -/
theorem Site.Beside.twins {s t : Site} {id : SessionId} {r : StepRequest} (h : Beside id s t) (hs : s.Plain)
    (hq : s.Quiet r.node) (hne : r.id ≠ id) : Twins r (t.timer - s.timer) s t where
  plain := ⟨hs, h.plain⟩
  quiet := ⟨hq, h.quiet r.node hq⟩
  key := h.keys r.id.text fun htext => hne (SessionId.text_injective htext)
  record := h.records r.id hne
  clock := h.clock
  timer := (Nat.add_sub_cancel' h.timer).symm
  settings := h.settings r.node

/-- Two sites whose stores hold the same of every key and every session. -/
structure Site.SameStores (s t : Site) : Prop where
  keys : ∀ key, s.keyState key = t.keyState key
  records : ∀ id, s.record? id = t.record? id

/-- The runs of two steps on different sessions, in both orders. -/
theorem StepPhase.runs_commute {s : Site} (hs : s.Plain) {r₁ r₂ : StepRequest} (hne : r₁.id ≠ r₂.id)
    (hq₁ : s.Quiet r₁.node) (hq₂ : s.Quiet r₂.node) :
    ∃ o₁ o₂ s₁ s₂ a b, Runs r₁ .initial s o₁ s₁ ∧ Runs r₂ .initial s₁ o₂ a ∧ Runs r₂ .initial s o₂ s₂ ∧
      Runs r₁ .initial s₂ o₁ b ∧ a.SameStores b ∧ Beside r₁.id s s₁ ∧ Beside r₂.id s s₂ := by
  obtain ⟨o₁, s₁, hrun₁⟩ := Runs.total r₁ s
  obtain ⟨o₂, s₂, hrun₂⟩ := Runs.total r₂ s
  have hbeside₁ := hrun₁.beside hs hq₁ (about_initial r₁)
  have hbeside₂ := hrun₂.beside hs hq₂ (about_initial r₂)
  obtain ⟨a, hrun_a, htwins_a⟩ := hrun₂.twins (hbeside₁.twins hs hq₂ hne.symm) (about_initial r₂)
  obtain ⟨b, hrun_b, htwins_b⟩ := hrun₁.twins (hbeside₂.twins hs hq₁ hne) (about_initial r₁)
  have hafter_a := hrun_a.beside hbeside₁.plain (hbeside₁.quiet _ hq₂) (about_initial r₂)
  have hafter_b := hrun_b.beside hbeside₂.plain (hbeside₂.quiet _ hq₁) (about_initial r₁)
  refine ⟨o₁, o₂, s₁, s₂, a, b, hrun₁, hrun_a, hrun₂, hrun_b, ⟨fun key => ?_, fun id => ?_⟩, hbeside₁, hbeside₂⟩
  · by_cases h₁ : key = r₁.id.text
    · have h₂ : key ≠ r₂.id.text := fun h₂ => hne (SessionId.text_injective (h₁.symm.trans h₂))
      rw [hafter_a.keys key h₂, h₁, htwins_b.key]
    · by_cases h₂ : key = r₂.id.text
      · rw [hafter_b.keys key h₁, h₂, htwins_a.key]
      · rw [hafter_a.keys key h₂, hbeside₁.keys key h₁, hafter_b.keys key h₁, hbeside₂.keys key h₂]
  · by_cases h₁ : id = r₁.id
    · rw [hafter_a.records id (h₁ ▸ hne), h₁, htwins_b.record]
    · by_cases h₂ : id = r₂.id
      · rw [hafter_b.records id h₁, h₂, htwins_a.record]
      · rw [hafter_a.records id h₂, hbeside₁.records id h₁, hafter_b.records id h₁, hbeside₂.records id h₂]

namespace World

/-- Two steps are made one after the other, each from start to end, at one reading of the clock. -/
def InTurn (w : World) (r₁ r₂ : StepRequest) (o₁ o₂ : Except Stop Outcome) (w' : World) : Prop :=
  ∃ between : World, w.Completes r₁ o₁ between ∧ between.site.now = w.site.now ∧ between.Completes r₂ o₂ w'

/-- Steps on different sessions commute over stores in memory; nothing is said of stores in directories. They
are made in a world at rest whose clock stands still, with a closed circuit and no failing call, on a lease
store in memory whatever it holds and on a repository in memory after whatever calls. Both orders come to their
end, the outcome of each step is the same in both, and so is what the stores hold: of every key its lease, its
last fence and its queue, and of every session the record and its fence. -/
theorem steps_commute (w : World) (leases : MemoryLeases) (ops : List RepositoryOp) (r₁ r₂ : StepRequest)
    (hrest : w.AtRest) (hleases : w.site.leases = .memory leases)
    (hrepository : w.site.repository = .memory (MemoryRepository.after {} ops)) (hstill : w.site.running = false)
    (hq₁ : w.site.Quiet r₁.node) (hq₂ : w.site.Quiet r₂.node) (hne : r₁.id ≠ r₂.id) :
    ∃ o₁ o₂ a b, w.InTurn r₁ r₂ o₁ o₂ a ∧ w.InTurn r₂ r₁ o₂ o₁ b ∧
      (∀ key, a.site.keyState key = b.site.keyState key) ∧
      ∀ id, a.site.record? id = b.site.record? id := by
  have hkeyed : (MemoryRepository.after {} ops).Keyed :=
    MemoryRepository.keyed_after (fun id r hr => by cases hr) ops
  have hs : w.site.Plain := ⟨⟨leases, hleases⟩, ⟨_, hrepository, hkeyed⟩, hstill⟩
  obtain ⟨o₁, o₂, s₁, s₂, a, b, hrun₁, hrun_a, hrun₂, hrun_b, hsame, hbeside₁, hbeside₂⟩ :=
    runs_commute hs hne hq₁ hq₂
  have hnow {s : Site} {id : SessionId} (h : Beside id w.site s) : s.now = w.site.now := by
    rw [h.plain.now, hs.now, h.clock]
  obtain ⟨w₁, hdone₁, hrest₁, rfl⟩ := hrest.completes hrun₁
  obtain ⟨w₂, hdone₂, hrest₂, rfl⟩ := hrest.completes hrun₂
  obtain ⟨wa, hdone_a, -, rfl⟩ := hrest₁.completes hrun_a
  obtain ⟨wb, hdone_b, -, rfl⟩ := hrest₂.completes hrun_b
  exact ⟨o₁, o₂, wa, wb, ⟨w₁, hdone₁, hnow hbeside₁, hdone_a⟩, ⟨w₂, hdone₂, hnow hbeside₂, hdone_b⟩, hsame.keys,
    hsame.records⟩

/-- A start that has to wait for a lease whose holder is gone, and a recovery of another session. -/
theorem steps_commute_blocked :
    let blocked : SessionId := ⟨1⟩
    let lease : Lease := ⟨blocked.text, "gone", ⟨7⟩, ⟨5000000000⟩, 0⟩
    let leases := MemoryLeases.setState {} blocked.text ⟨some lease, ⟨7⟩, [], 3⟩
    let ops : List RepositoryOp := [.create (Session.create blocked 0 ⟨0⟩), .create (Session.create .nil 0 ⟨0⟩)]
    let w : World := { site := { Site.single with
      leases := .memory leases, repository := .memory (MemoryRepository.after {} ops) } }
    let r₁ : StepRequest := ⟨0, blocked, some (.transition .start none), .ofMillis 100⟩
    let r₂ : StepRequest := ⟨0, .nil, none, .ofMillis 100⟩
    w.AtRest ∧ w.site.Quiet 0 ∧ r₁.id ≠ r₂.id ∧ w.site.keyState blocked.text = ⟨some lease, ⟨7⟩, [], 3⟩ ∧
      ∃ o₁ o₂ a b, w.InTurn r₁ r₂ o₁ o₂ a ∧ w.InTurn r₂ r₁ o₂ o₁ b ∧
        (∀ key, a.site.keyState key = b.site.keyState key) ∧
        ∀ id, a.site.record? id = b.site.record? id := by
  intro blocked lease leases ops w r₁ r₂
  have hrest : w.AtRest := ⟨rfl, rfl, List.forall_mem_nil _, List.forall_mem_nil _⟩
  have hquiet : w.site.Quiet 0 := ⟨fun _ _ => List.forall_mem_nil _, 0, rfl⟩
  have hne : r₁.id ≠ r₂.id := by decide
  exact ⟨hrest, hquiet, hne, MemoryLeases.state_setState_self {} blocked.text _,
    steps_commute w leases ops r₁ r₂ hrest rfl rfl rfl hquiet hquiet hne⟩

end World

end FencedSessions
