import Mathlib.Algebra.BigOperators.Group.Finset.Basic
import FencedSessions.Proofs.Retries
import FencedSessions.Proofs.Tallies
import FencedSessions.Proofs.Versions

/-! The counters account for every write. When no step is under way, the saves of the steps are those
that were counted, and the stored versions count the creations and the saves. -/

namespace FencedSessions

namespace Keyed

variable {κ : Type} [DecidableEq κ] {ν : Type}

theorem find?_listed {m : List (κ × ν)} {key : κ} :
    key ∈ m.map (·.1) ↔ ∃ v, find? m key = some v := by
  induction m with
  | nil => simp [find?]
  | cons p rest ih =>
    unfold find?
    by_cases hkey : key = p.1
    · simp [hkey]
    · simp only [List.map_cons, List.mem_cons, hkey, false_or]
      exact ih

end Keyed

section Lists

variable {α β : Type} {l : List α}

theorem flatMap_filter {f : α → List β} {p : α → Bool} {q : β → Bool}
    (h : ∀ a ∈ l, ∀ b ∈ f a, q b = p a) : (l.filter p).flatMap f = (l.flatMap f).filter q := by
  induction l with
  | nil => rfl
  | cons a l ih =>
    have ih := ih fun a ha => h a (List.mem_cons_of_mem _ ha)
    have ha : (f a).filter q = if p a then f a else [] := by
      split
      · rename_i hp
        exact List.filter_eq_self.mpr fun b hb => (h a List.mem_cons_self b hb).trans hp
      · rename_i hp
        exact List.filter_eq_nil_iff.mpr fun b hb => by rw [h a List.mem_cons_self b hb]; exact hp
    rw [List.flatMap_cons, List.filter_append, ha, ← ih, List.filter_cons]
    split
    · rfl
    · rfl

/-- What is counted in lists that are made up of two conditions is how often each of them holds. -/
theorem countP_flatMap_toNat {f : α → List β} {r : β → Bool} {p q : α → Bool}
    (h : ∀ a ∈ l, (f a).countP r = (p a).toNat + (q a).toNat) :
    (l.flatMap f).countP r = l.countP p + l.countP q := by
  induction l with
  | nil => rfl
  | cons a l ih =>
    have ih := ih fun a ha => h a (List.mem_cons_of_mem _ ha)
    rw [List.flatMap_cons, List.countP_append, ih, h a List.mem_cons_self, countP_cons_toNat,
      countP_cons_toNat]
    omega

end Lists

namespace MemoryRepository

/-- The sessions that are stored. -/
def ids (m : MemoryRepository) : Finset SessionId := (m.records.map (·.1)).toFinset

/-- The version of a stored session. -/
def version (m : MemoryRepository) (id : SessionId) : Nat :=
  ((m.find? id).map (·.session.version)).getD 0

/-- The sum of the versions of all stored sessions. -/
def versions (m : MemoryRepository) : Nat := ∑ id ∈ m.ids, m.version id

theorem mem_ids {m : MemoryRepository} {id : SessionId} :
    id ∈ m.ids ↔ ∃ r, m.find? id = some r :=
  List.mem_toFinset.trans Keyed.find?_listed

end MemoryRepository

namespace Crowd

variable {c : Crowd} {staleness : Nat → Int}

/-- No step is under way, and every step that was begun has answered. -/
structure Settled (c : Crowd) : Prop where
  fresh : c.Each fun _ x => x.activity.Fresh
  answered : ∀ e ∈ c.endings, e.answered

theorem Settled.pending (h : c.Settled) (ht : c.Told staleness) (i : Nat) : c.pending i = [] := by
  cases hx : c.clients[i]? with
  | none => simp only [Crowd.pending, hx, Option.map_none, Option.getD_none]
  | some x => exact ht.pending_fresh hx (h.fresh i x hx)

/-- When every step has answered, the saves are those in the notes of the steps. -/
theorem Settled.saves (h : c.Settled) (hhonest : c.Honest staleness) :
    c.saves.Perm (c.endings.flatMap (·.notes.saves)) := by
  have hown : ∀ e ∈ c.endings, ∀ w ∈ e.notes.saves, w.client = e.client := by
    intro e he w hw
    obtain ⟨o, ho⟩ := Option.isSome_iff_exists.mp (h.answered e he)
    exact ((hhonest.truthful e he o ho).sound.own w hw).1
  have hclient (i : Nat) : c.saves.filter (·.client = i) =
      (c.endings.flatMap (·.notes.saves)).filter (·.client = i) := by
    rw [hhonest.accounted i, h.pending hhonest.told i, List.append_nil]
    exact flatMap_filter fun e he w hw => by rw [hown e he w hw]
  refine List.perm_iff_count.mpr fun w => ?_
  have hcount (ws : List Save) : (ws.filter (·.client = w.client)).count w = ws.count w :=
    List.count_filter (by simp)
  rw [← hcount, hclient, hcount]

/-- What a step that has answered has saved of its change is what it is counted for. -/
theorem changes_counted {e : Ending} {threshold : Int} {o : Outcome} (ho : e.outcome = some o)
    (h : e.notes.Truthful e.client e.request threshold o) :
    e.notes.saves.countP (·.purpose = .change) = e.applied.toNat + e.checkpointed.toNat := by
  rw [List.countP_eq_length_filter, h.sound.changes]
  unfold Ending.applied Ending.checkpointed Ending.succeeded
  rw [ho]
  cases hchange : e.request.change with
  | none =>
    rw [(h.looking hchange).1]
    simp
  | some change =>
    have hne : e.request.change ≠ none := by simp [hchange]
    cases hsuccess : o.isSuccess with
    | false =>
      rw [h.unsaved hne hsuccess]
      simp [hsuccess]
    | true =>
      cases o with
      | success status version =>
        obtain ⟨w, hw, -, -⟩ := (h.changing hne status version).mp rfl
        rw [hw]
        cases hmoves : change.moves <;> simp [hsuccess, hmoves]
      | invalidTransition reason => cases hsuccess
      | conflict retryable reason => cases hsuccess
      | notFound => cases hsuccess
      | transientError reason => cases hsuccess

/-- When every step has answered, every save is counted. -/
theorem Settled.counted (h : c.Settled) (hhonest : c.Honest staleness) :
    c.saves.length = c.tally.applied + c.tally.checkpointed + c.tally.rehydrated := by
  have hchanges : c.saves.countP (·.purpose = .change) =
      c.endings.countP Ending.applied + c.endings.countP Ending.checkpointed := by
    rw [(h.saves hhonest).countP_eq]
    refine countP_flatMap_toNat fun e he => ?_
    obtain ⟨o, ho⟩ := Option.isSome_iff_exists.mp (h.answered e he)
    exact changes_counted ho (hhonest.truthful e he o ho)
  have hsplit := List.length_eq_countP_add_countP (fun w : Save => w.purpose = .change) (l := c.saves)
  have hother : c.saves.countP (fun w => ¬decide (w.purpose = .change)) =
      c.saves.countP (·.purpose = .orphaning) := by
    refine List.countP_congr fun w _ => ?_
    cases w.purpose <;> simp
  simp only [Crowd.tally]
  omega

/-- The versions of the stored sessions count their writes. -/
theorem Ordered.versions_sum {m : MemoryRepository} (h : c.Ordered m) :
    m.versions = c.created.length + c.saves.length := by
  have hids : m.ids = (c.created.map (·.id)).toFinset := by
    ext id
    rw [MemoryRepository.mem_ids, List.mem_toFinset, List.mem_map]
    constructor
    · rintro ⟨r, hr⟩
      exact h.created hr
    · rintro ⟨x, hx, hid⟩
      cases hr : m.find? id with
      | none => exact absurd hid ((h.written.absent hr).2 x hx)
      | some r => exact ⟨r, rfl⟩
  have hversion : ∀ id ∈ m.ids, m.version id = (c.saves.map (·.id)).count id + 1 := by
    intro id hid
    obtain ⟨r, hr⟩ := MemoryRepository.mem_ids.mp hid
    have hcount : (c.saves.map (·.id)).count id = (c.savesOf id).length := by
      rw [List.count, List.countP_map, List.countP_eq_length_filter]
      rfl
    rw [MemoryRepository.version, hr, Option.map_some, Option.getD_some, h.version hr, hcount]
  have hsaves : ∑ id ∈ m.ids, (c.saves.map (·.id)).count id = c.saves.length := by
    have hknown : ∀ id ∈ (c.saves.map (·.id) : Multiset SessionId), id ∈ m.ids := by
      intro id hid
      obtain ⟨w, hw, rfl⟩ := List.mem_map.mp hid
      obtain ⟨x, hx, hxid⟩ := h.known w hw
      rw [hids, List.mem_toFinset]
      exact List.mem_map.mpr ⟨x, hx, hxid⟩
    have hcard := Multiset.sum_count_eq_card hknown
    simp only [Multiset.coe_count, Multiset.coe_card, List.length_map] at hcard
    exact hcard
  have hcreated : m.ids.card = c.created.length := by
    rw [hids, List.toFinset_card_of_nodup h.apart, List.length_map]
  rw [MemoryRepository.versions, Finset.sum_congr rfl hversion, Finset.sum_add_distrib, hsaves,
    ← Finset.card_eq_sum_ones, hcreated, Nat.add_comm]

/-- A crowd whose clients are at no step is settled when all its steps have answered. -/
theorem settled_idle (hidle : c.clients.all fun x => x.activity.stepping?.isNone)
    (hanswered : c.endings.all Ending.answered) : c.Settled where
  fresh i x hx := by
    have hnone := List.all_eq_true.mp hidle x (List.mem_of_getElem? hx)
    exact Activity.fresh_of_idle (Option.isNone_iff_eq_none.mp hnone)
  answered := List.all_eq_true.mp hanswered

/-- The counters account for every write. Whatever sessions are created and stepped by any number of
services, whichever calls fail and however they interleave, when all steps have answered, the counters
tell how often the stored sessions were written, and what became of the steps. -/
theorem metrics_account (s : Site) (acts : List Act) (hcounters : s.counters = {})
    (hempty : s.Unwritten) (hrange : (s.crowd.run acts).InRange)
    (hsettled : (s.crowd.run acts).Settled) :
    let c := s.crowd.run acts
    let k := c.site.counters
    (∃ m, c.Written m ∧ m.versions = k.created + k.applied + k.checkpointed + k.rehydrated) ∧
      Counters.total k.byStatus = k.applied ∧
      k.applied + k.checkpointed + k.failures =
        c.endings.countP fun e => e.answered && !e.recovered := by
  intro c k
  have hhonest := (honest_crowd s).run acts
  have htallied := (tallied_crowd hcounters).run (honest_crowd s).told acts
  obtain ⟨m, hordered⟩ := (ordered_crowd hempty).run hrange
  refine ⟨⟨m, hordered.written, ?_⟩, htallied.balanced.statuses, htallied.answered⟩
  have hsaves := hsettled.counted hhonest
  have hcreated : c.created.length = k.created := congrArg Tally.created htallied.tally.symm
  rw [← htallied.tally] at hsaves
  rw [hordered.versions_sum, hsaves, hcreated]
  simp only [Counters.tally, k, c]
  omega

/-- A session is created, started, found abandoned and retried; then a change is refused, a checkpoint
is added, and a step finds nothing to recover. -/
theorem metrics_account_recovered :
    let id := SessionId.fresh 1
    let step (change : Option Change) (client : Nat) : List Act :=
      .steps {} ⟨0, id, change, ⟨1000000000⟩⟩ [] :: List.replicate 16 (.go client)
    let acts := [.create 3 []] ++ step (some (.transition .start none)) 0 ++
      [.set ⟨400000000000000⟩] ++ step (some (.transition .retry none)) 1 ++
      step (some (.transition .complete none)) 2 ++ step (some (.checkpoint .null "halt")) 3 ++ step none 4
    let c := Site.single.crowd.run acts
    c.Settled ∧ (∃ m, c.Written m ∧ m.versions = 5) ∧ c.site.counters =
      { created := 1, applied := 2, checkpointed := 1, rejected := 1, rehydrated := 1,
        byStatus := [("PENDING", 1), ("RUNNING", 1)] } ∧
      (c.endings.countP fun e => e.answered && !e.recovered) = 4 := by
  intro id step acts c
  have hcounters : c.site.counters =
      { created := 1, applied := 2, checkpointed := 1, rejected := 1, rehydrated := 1,
        byStatus := [("PENDING", 1), ("RUNNING", 1)] } := by decide +kernel
  have hsettled : c.Settled := settled_idle (by decide +kernel) (by decide +kernel)
  have hrun : Site.single.crowd.run acts = c := rfl
  clear_value c
  obtain ⟨m, hrecorded⟩ := (Site.recorded_crowd (s := Site.single) rfl).run acts
  obtain ⟨⟨m, hm, hversions⟩, -, hanswered⟩ := metrics_account Site.single acts rfl rfl
    (inRange_memory hrecorded.1) (hrun.symm ▸ hsettled)
  rw [hrun] at hm hversions hanswered
  rw [hcounters] at hversions hanswered
  exact ⟨hsettled, ⟨m, hm, hversions⟩, hcounters, hanswered.symm⟩

end Crowd

end FencedSessions
