import FencedSessions.Proofs.Numbering
import FencedSessions.Proofs.Releases

/-! What a deletion of a lease is worth. A lease counts as live for an operation only if its fence is on
record and its expiry is to come, so a fence is out of the game once it is on record no more, or as long
as all clock readings are such that its lease is expired. In memory a deletion takes the lease off the
record in any case. In a directory it does so if the lease is still live; an expired one stays in the
file, and a clock that goes back revives it. -/

namespace FencedSessions

/-- Whether the numbers of an operation are within the ranges of their fields. -/
def LeaseOp.sized : LeaseOp → Bool
  | .grant _ _ place _ => place < Word.size64
  | .enqueue _ deadline => deadline.Held
  | .extend .. | .delete _ | .get | .position _ | .remove _ | .queueLength => true

/-- A store that answers so about a key takes no lease with this fence for live: it does not show one, it
neither extends one nor grants a lease to who expects one, and when it turns down who expects none, it has
another one to show. -/
structure Disowned (ask : (op : LeaseOp) → Except Stop op.Answer) (f : Fence) : Prop where
  shows : ∃ shown, ask .get = .ok shown ∧ ∀ l ∈ shown, l.fence ≠ f
  extends_none : ∀ ttl, ask (.extend f ttl) = .ok none
  grants_none : ∀ holder place ttl, ask (.grant (some f) holder place ttl) = .ok none
  turns_down : ∀ holder place ttl, ask (.grant none holder place ttl) = .ok none → ask .get ≠ .ok none

/-- It takes the same answers to disown a fence. -/
theorem Disowned.congr {ask ask' : (op : LeaseOp) → Except Stop op.Answer} {f : Fence}
    (h : Disowned ask f) (heq : ∀ op a, ask op = .ok a ↔ ask' op = .ok a) : Disowned ask' f := by
  obtain ⟨shown, hget, hshown⟩ := h.shows
  refine ⟨⟨shown, (heq _ _).mp hget, hshown⟩, fun ttl => (heq _ _).mp (h.extends_none ttl),
    fun holder place ttl => (heq _ _).mp (h.grants_none holder place ttl), ?_⟩
  intro holder place ttl hgrant hnone
  exact h.turns_down holder place ttl ((heq _ _).mpr hgrant) ((heq _ _).mpr hnone)

namespace KeyState

variable {k : KeyState} {f : Fence} {readings : Instant → Prop} {now : Instant}

/-- A fence that was issued, and whose lease is not live at any of some clock readings. -/
structure Void (k : KeyState) (f : Fence) (readings : Instant → Prop) : Prop where
  issued : f ≤ k.lastFence
  expired : ∀ l, k.lease = some l → l.fence = f → ∀ now, readings now → l.liveAt now = false

theorem Spent.void (h : k.Spent f) : k.Void f readings :=
  ⟨h.issued, fun l hl hf => absurd hf (h.absent l hl)⟩

/-- The fence of an expired lease is void from the expiry on. -/
theorem void_expired {l : Lease} (hissued : f ≤ k.lastFence) (hl : k.lease = some l) :
    k.Void f (l.expiresAt ≤ ·) := by
  refine ⟨hissued, fun l' hl' _ now hnow => ?_⟩
  rw [hl] at hl'
  cases hl'
  exact decide_eq_false (Int.not_lt.mpr hnow)

theorem Void.liveLease (h : k.Void f readings) (hnow : readings now) {l : Lease}
    (hl : k.liveLease now = some l) : l.fence ≠ f := by
  obtain ⟨hlease, hlive⟩ := Option.filter_eq_some_iff.mp hl
  intro hf
  rw [h.expired l hlease hf now hnow] at hlive
  cases hlive

theorem Void.extend (h : k.Void f readings) (hnow : readings now) (ttl : Span) :
    k.extend now f ttl = (.ok none, k) := by
  unfold KeyState.extend
  split
  · rename_i l hl
    rw [if_neg fun hlive => by simp [h.expired l hl hlive.1 now hnow] at hlive]
  · rfl

/-- No operation at one of the readings makes a void fence live again. -/
theorem Void.run (h : k.Void f readings) (hnow : readings now) (key : String) (op : LeaseOp) :
    (k.run key now op).2.Void f readings := by
  refine ⟨issued_run h.issued key now op, ?_⟩
  cases op with
  | grant expected holder place ttl =>
    intro l hl hf
    rcases k.grant_lease key now expected holder place ttl with heq | ⟨-, hgranted⟩
    · exact h.expired l ((congrArg KeyState.lease heq).symm.trans hl) hf
    · rcases hgranted l hl with hold | hnew
      · exact h.expired l hold hf
      · -- the new lease bears a fence that is later than all that were issued
        have hle : f.value ≤ k.lastFence.value := h.issued
        rw [← hf, hnew] at hle
        exact absurd hle (Nat.not_succ_le_self _)
  | extend fence ttl =>
    intro l hl hf
    by_cases hfence : fence = f
    · subst hfence
      simp only [KeyState.run, h.extend hnow ttl] at hl
      exact h.expired l hl hf
    · obtain ⟨l', hl', hl⟩ : ∃ l', k.lease = some l' ∧ (l.fence = fence ∨ l = l') := by
        simp only [KeyState.run, KeyState.extend] at hl
        split at hl
        · rename_i l' hl'
          refine ⟨l', hl', ?_⟩
          split at hl
          · rename_i hmatch
            split at hl
            · exact Or.inr (Option.some.inj (hl.symm.trans hl'))
            · cases hl
              exact Or.inl hmatch.1
          · exact Or.inr (Option.some.inj (hl.symm.trans hl'))
        · rename_i hnone
          rw [hnone] at hl
          cases hl
      rcases hl with hother | rfl
      · exact absurd (hother.symm.trans hf) hfence
      · exact h.expired l hl' hf
  | delete fence => exact fun l hl => h.expired l ((k.delete_lease now fence).2 l hl)
  | get => exact h.expired
  | enqueue holder deadline => exact h.expired
  | position ticket => exact h.expired
  | remove ticket => exact h.expired
  | queueLength => exact h.expired

/-- A state that holds a fence for void disowns it at these readings. -/
theorem Void.disowned (h : k.Void f readings) (now : Instant) (hnow : readings now) (key : String) :
    Disowned (fun op => (k.run key now op).1) f := by
  refine ⟨⟨k.liveLease now, rfl, fun l hl => h.liveLease hnow hl⟩,
    fun ttl => congrArg Prod.fst (h.extend hnow ttl), fun holder place ttl => ?_,
    fun holder place ttl hgrant hget => ?_⟩
  · have hexpected : (k.liveLease now).map Lease.fence ≠ some f := by
      intro hsome
      obtain ⟨l, hl, hf⟩ := Option.map_eq_some_iff.mp hsome
      exact h.liveLease hnow hl hf
    simp only [KeyState.run, grant, if_pos hexpected]
  · have hnone : k.liveLease now = none := Except.ok.inj hget
    simp only [KeyState.run, grant, hnone, Option.map_none, ne_eq, not_true_eq_false, if_false] at hgrant
    split at hgrant
    · cases hgrant
    · cases hgrant

/-- What a deletion answers, and that it leaves nothing on record. -/
theorem run_delete {l : Lease} (hl : k.lease = some l) (key : String) (now : Instant) :
    k.run key now (.delete l.fence) = (.ok (l.liveAt now), { k with lease := none }) := by
  simp only [KeyState.run, delete, hl, if_true]

variable {key : String} {op : LeaseOp}

/-- An operation that is answered computes a state that can be stored, while the counters have room. -/
theorem Storable.answered (h : k.Storable) {n : Nat} (hroom : k.Room (n + 1)) (hsized : op.sized)
    {a : op.Answer} (ha : (k.run key now op).1 = .ok a) :
    (k.run key now op).2.Storable ∧ (k.run key now op).2.Room n := by
  by_cases hrange : op.inRange now
  · exact h.run hroom hrange key
  · -- its expiry is beyond the time line, so that an answer turns it down
    have hless := hroom.less
    cases op with
    | grant expected holder place ttl =>
      have hnone : now.after? ttl = none := by
        simpa [LeaseOp.inRange, of_decide_eq_true hsized] using hrange
      simp only [KeyState.run, KeyState.grant, hnone] at ha ⊢
      split at ha
      · rename_i hexpected
        rw [if_pos hexpected]
        exact ⟨h, hless⟩
      · cases ha
    | extend fence ttl =>
      have hnone : now.after? ttl = none := by simpa [LeaseOp.inRange] using hrange
      simp only [KeyState.run, KeyState.extend, hnone] at ha ⊢
      split
      · split <;> exact ⟨h, hless⟩
      · exact ⟨h, hless⟩
    | enqueue holder deadline => exact absurd hsized hrange
    | delete fence => exact absurd rfl hrange
    | get => exact absurd rfl hrange
    | position ticket => exact absurd rfl hrange
    | remove ticket => exact absurd rfl hrange
    | queueLength => exact absurd rfl hrange

end KeyState

namespace MemoryLeases

variable {m : MemoryLeases} {key : String} {P : KeyState → Prop}

/-- What every operation preserves of a key's state, requests preserve. -/
theorem after_state (rs : List LeaseRequest) (h : P (m.state key))
    (hrun : ∀ r ∈ rs, ∀ k, P k → P (k.run key r.time r.op).2) : P ((m.after rs).state key) := by
  induction rs generalizing m with
  | nil => exact h
  | cons r rs ih =>
    refine ih ?_ fun r' hr' => hrun r' (by simp [hr'])
    by_cases hkey : key = r.key
    · subst hkey
      rw [m.run_state]
      exact hrun r (by simp) _ h
    · rw [m.run_state_other r.time r.op hkey]
      exact h

/-- A lease on record that is deleted by its fence is disowned for good. -/
theorem deleted_disowned {l : Lease} (hl : (m.state key).lease = some l) (hb : (m.state key).Bounded) (time : Instant)
    (later : List LeaseRequest) :
    let deleted := m.run time key (.delete l.fence)
    deleted.1 = .ok (l.liveAt time) ∧
      ∀ now, Disowned (fun op => ((deleted.2.after later).run now key op).1) l.fence := by
  have hspent : ((m.run time key (.delete l.fence)).2.state key).Spent l.fence := by
    rw [m.run_state]
    exact KeyState.spent_delete (hb l hl) time
  refine ⟨congrArg Prod.fst (KeyState.run_delete hl key time), fun now => ?_⟩
  have hvoid := after_state (P := fun k => k.Void l.fence fun _ => True) later hspent.void
    fun r _ k hk => hk.run trivial key r.op
  exact hvoid.disowned now trivial key

end MemoryLeases

namespace DirectoryLeases

open FileTree

variable {d key : String} {t : FileTree} {P : KeyState → Prop} {n : Nat}

/-- The file of a key can be put back for so many more operations, and what it holds is as required. -/
structure Holds (d : String) (t : FileTree) (n : Nat) (key : String) (P : KeyState → Prop) : Prop where
  housed : Houses t d key
  filed : ∃ k, Stored t (path d key ".json") k ∧ k.Storable ∧ k.Room n ∧ P k

theorem Holds.mono {Q : KeyState → Prop} (h : Holds d t n key P) (hPQ : ∀ k, P k → Q k) :
    Holds d t n key Q := by
  obtain ⟨k, hstored, hk, hroom, hP⟩ := h.filed
  exact ⟨h.housed, k, hstored, hk, hroom, hPQ k hP⟩

/-- Nothing is on record for a key that has no files. -/
theorem Holds.fresh (hfiles : ∀ e ∈ extensions, t.lookup? (path d key e) = none ∧ t.writable (path d key e) = .ok ())
    (hroom : n < Word.size64) : Holds d t n key KeyState.Bounded := by
  have hcounted : 0 + n < Word.size64 := by omega
  refine ⟨fun e he => .of_writable (hfiles e he).1 (hfiles e he).2, {}, ?_, KeyState.storable_empty,
    ⟨hcounted, hcounted, hcounted⟩, nofun⟩
  exact .inr ⟨(hfiles ".json" (by simp [extensions])).1, rfl⟩

theorem Holds.trivial (h : Holds d t n key P) : Holds d t n key fun _ => True :=
  h.mono fun _ _ => True.intro

/-- What an operation leaves in the file of its key: the old state, or one that it computes with an
answer. -/
theorem run_leaves {k : KeyState} (h : Stored t (path d key ".json") k) (hk : k.Storable) (now : Instant)
    (op : LeaseOp) :
    let r := run t d now key op
    Stored r.2 (path d key ".json") k ∨ ∃ a, (k.run key now op).1 = .ok a ∧
      Stored r.2 (path d key ".json") (k.run key now op).2 := by
  dsimp only
  rcases run_cases t d now key op with ⟨e, hr⟩ | ⟨t₁, htouch, hrest⟩
  · rw [hr]
    exact Or.inl h
  · have h₁ := h.of_lookup (touch_other htouch (path_ne d key key).1)
    rcases hrest with ⟨e, hr⟩ | ⟨k', a, hload, hrun, ⟨-, hr⟩ | ⟨-, -, hr⟩⟩
    · rw [hr]
      exact Or.inl h₁
    · rw [hr]
      exact Or.inl h₁
    · obtain rfl := h₁.load_eq hk hload
      rw [hr]
      rcases store_state t₁ d key (k'.run key now op).2 with ⟨-, hread⟩ | ⟨-, hkept⟩
      · exact Or.inr ⟨a, hrun, Or.inl hread⟩
      · exact Or.inl (h₁.of_lookup hkept)

/-- What an operation preserves of a state, the file of a key preserves. It may be an operation on another
key, which has the same file or leaves it alone. -/
theorem Holds.run (h : Holds d t (n + 1) key P) {r : LeaseRequest} (hsized : r.op.sized)
    (hrun : ∀ k, P k → P (k.run r.key r.time r.op).2) :
    Holds d (run t d r.time r.key r.op).2 n key P := by
  obtain ⟨k, hstored, hk, hroom, hP⟩ := h.filed
  have hhoused := h.housed.run (run_directories t d r.time r.key r.op)
  by_cases hfile : path d key ".json" = path d r.key ".json"
  · rw [hfile] at hstored
    refine ⟨hhoused, ?_⟩
    rw [hfile]
    rcases run_leaves hstored hk r.time r.op with hold | ⟨a, ha, hnew⟩
    · exact ⟨k, hold, hk, hroom.less, hP⟩
    · obtain ⟨hk', hroom'⟩ := hk.answered hroom hsized ha
      exact ⟨_, hnew, hk', hroom', hrun k hP⟩
  · obtain ⟨hlock, htmp⟩ := path_ne d key r.key
    exact ⟨hhoused, k, hstored.of_lookup (run_lookup r.time r.op hlock htmp hfile), hk, hroom.less, hP⟩

/-- What every operation preserves of a state, the file of a key preserves through all that happens. -/
theorem Holds.left {events : List LeaseEvent}
    (hopen : ∀ p ∈ ancestors d, t.lookup? p = some .directory)
    (h : Holds d t ((LeaseEvent.requests events).length + n) key P)
    (hsized : ∀ r ∈ LeaseEvent.requests events, r.op.sized)
    (hrun : ∀ r ∈ LeaseEvent.requests events, ∀ k, P k → P (k.run r.key r.time r.op).2) :
    ∃ t', left d t events = .ok t' ∧ (∀ p ∈ ancestors d, t'.lookup? p = some .directory) ∧
      Holds d t' n key P := by
  induction events generalizing t with
  | nil => exact ⟨t, rfl, hopen, by simpa [LeaseEvent.requests] using h⟩
  | cons event events ih =>
    cases event with
    | opens =>
      simp only [DirectoryLeases.left, makeDirectories_again hopen]
      exact ih hopen h hsized hrun
    | serves r =>
      have hrequests : LeaseEvent.requests (.serves r :: events) = r :: LeaseEvent.requests events :=
        rfl
      rw [hrequests] at hsized hrun
      rw [hrequests, List.length_cons, Nat.add_right_comm] at h
      have hsame := run_directories t d r.time r.key r.op
      exact ih (fun p hp => (hsame p).mpr (hopen p hp)) (h.run (hsized r (by simp)) (hrun r (by simp)))
        (fun r' hr' => hsized r' (by simp [hr'])) fun r' hr' => hrun r' (by simp [hr'])

/-- The answers that a file gives are those of the state that it holds. -/
theorem Stored.answers {k : KeyState} (h : Stored t (path d key ".json") k) (hk : k.Storable)
    (hhoused : Houses t d key) (now : Instant) (op : LeaseOp) (a : op.Answer) :
    (k.run key now op).1 = .ok a ↔ (DirectoryLeases.run t d now key op).1 = .ok a :=
  ⟨fun ha => (run_filed hhoused h hk ha).1, fun ha => ((run_stored h hk op).2 a ha).1⟩

theorem Holds.disowned {f : Fence} {readings : Instant → Prop}
    (h : Holds d t n key (·.Void f readings)) {now : Instant} (hnow : readings now) :
    Disowned (fun op => (DirectoryLeases.run t d now key op).1) f := by
  obtain ⟨k, hstored, hk, -, hvoid⟩ := h.filed
  exact (hvoid.disowned now hnow key).congr (hstored.answers hk h.housed now)

/-- A fence that is void at all readings that come is disowned at these. -/
theorem Holds.final {f : Fence} {readings : Instant → Prop} {events : List LeaseEvent} {t' : FileTree}
    (hopen : ∀ p ∈ ancestors d, t.lookup? p = some .directory)
    (h : Holds d t (LeaseEvent.requests events).length key (·.Void f readings))
    (hsized : ∀ r ∈ LeaseEvent.requests events, r.op.sized)
    (hreadings : ∀ r ∈ LeaseEvent.requests events, readings r.time)
    (hleft : DirectoryLeases.left d t events = .ok t') {now : Instant} (hnow : readings now) :
    Disowned (fun op => (DirectoryLeases.run t' d now key op).1) f := by
  obtain ⟨t₂, hleft', -, h₂⟩ := Holds.left (n := 0) hopen h hsized
    fun r hr k hk => hk.run (hreadings r hr) r.key r.op
  rw [hleft] at hleft'
  cases hleft'
  exact h₂.disowned hnow

/-- What a deletion of the lease on record answers and leaves in the file: nothing on record if the lease
is live, and else the lease as it is. -/
theorem Holds.deleted {l : Lease} (time : Instant)
    (h : Holds d t (n + 1) key fun k => k.lease = some l ∧ k.Bounded) :
    let deleted := DirectoryLeases.run t d time key (.delete l.fence)
    deleted.1 = .ok (l.liveAt time) ∧ Holds d deleted.2 n key fun k =>
      k.lease = (if l.liveAt time then none else some l) ∧ l.fence ≤ k.lastFence := by
  obtain ⟨k, hstored, hk, hroom, hl, hb⟩ := h.filed
  have hrun := KeyState.run_delete hl key time
  obtain ⟨hanswer, hleft, -⟩ := run_filed h.housed hstored hk (congrArg Prod.fst hrun)
  refine ⟨hanswer, h.housed.run (run_directories t d time key _), _, hleft, ?_⟩
  unfold KeyState.filing
  cases hlive : l.liveAt time with
  | true =>
    obtain ⟨hk', hroom'⟩ := hk.answered hroom rfl (congrArg Prod.fst hrun)
    rw [hrun] at hk' hroom' ⊢
    exact ⟨hk', hroom', rfl, hb l hl⟩
  | false => exact ⟨hk, hroom.less, hl, hb l hl⟩

/-- When deletions are final. After any requests, let the lease on record for a key be deleted by its
fence. In memory no later requests and no clock readings, set back as they may be, make the key show,
extend or go by a lease with this fence again. In a directory, on which stores are opened as often as one
likes, this is so if the lease was live, and as long as no reading is before its expiry if it was not; a
reading before its expiry shows the lease as before. -/
theorem deletion_final (d key : String) (files t : FileTree) (before later : List LeaseEvent)
    (time : Instant) (hsized : ∀ r ∈ LeaseEvent.requests (before ++ later), r.op.sized) :
    (∀ l, ((MemoryLeases.after {} (LeaseEvent.requests before)).state key).lease = some l →
      let deleted := (MemoryLeases.after {} (LeaseEvent.requests before)).run time key (.delete l.fence)
      deleted.1 = .ok (l.liveAt time) ∧ ∀ now,
        Disowned (fun op => ((deleted.2.after (LeaseEvent.requests later)).run now key op).1) l.fence) ∧
    (files.makeDirectories d = .ok t →
      (∀ e ∈ extensions, t.lookup? (path d key e) = none ∧ t.writable (path d key e) = .ok ()) →
      (LeaseEvent.requests (before ++ later)).length + 1 < Word.size64 →
      ∃ t₁ k, left d t before = .ok t₁ ∧ load t₁ (path d key ".json") = .ok k ∧
        ∀ l, k.lease = some l →
          let deleted := run t₁ d time key (.delete l.fence)
          deleted.1 = .ok (l.liveAt time) ∧
          (∀ now, (run deleted.2 d now key .get).1 =
            .ok (if l.liveAt time then none else if l.liveAt now then some l else none)) ∧
          ∃ t₂, left d deleted.2 later = .ok t₂ ∧
            (l.liveAt time → ∀ now, Disowned (fun op => (run t₂ d now key op).1) l.fence) ∧
            (l.liveAt time = false → (∀ r ∈ LeaseEvent.requests later, l.expiresAt ≤ r.time) →
              ∀ now, l.expiresAt ≤ now → Disowned (fun op => (run t₂ d now key op).1) l.fence)) := by
  have hrequests : LeaseEvent.requests (before ++ later) =
      LeaseEvent.requests before ++ LeaseEvent.requests later := List.filterMap_append
  rw [hrequests] at hsized ⊢
  refine ⟨fun l hl => ?_, fun hopen hfiles hroom => ?_⟩
  · exact MemoryLeases.deleted_disowned hl
      (MemoryLeases.after_state (P := KeyState.Bounded) _ nofun fun r _ k hk => hk.run key r.time r.op) time _
  · rw [List.length_append, Nat.add_assoc] at hroom
    have hstart := Holds.fresh hfiles hroom
    obtain ⟨t₁, hleft, hopen₁, h₁⟩ := hstart.left (makeDirectories_ok hopen).1
      (fun r hr => hsized r (by simp [hr])) fun r _ k hk => hk.run r.key r.time r.op
    obtain ⟨k, hstored, hk, hroom₁, hb⟩ := h₁.filed
    refine ⟨t₁, k, hleft, hstored.load_allowed hk (h₁.housed ".json" (by simp [extensions])), ?_⟩
    intro l hl
    obtain ⟨hanswer, hdeleted⟩ :=
      Holds.deleted time (l := l) ⟨h₁.housed, k, hstored, hk, hroom₁, hl, hb⟩
    have hopen₂ : ∀ p ∈ ancestors d,
        (run t₁ d time key (.delete l.fence)).2.lookup? p = some .directory :=
      fun p hp => (run_directories t₁ d time key _ p).mpr (hopen₁ p hp)
    have hrest : ∀ r ∈ LeaseEvent.requests later, r.op.sized := fun r hr => hsized r (by simp [hr])
    obtain ⟨t₂, hleft₂, -, -⟩ := Holds.left (n := 0) hopen₂ hdeleted.trivial hrest
      fun _ _ _ _ => trivial
    refine ⟨hanswer, fun now => ?_, t₂, hleft₂, fun hlive now => ?_, fun hlive hreadings now hnow => ?_⟩
    · obtain ⟨k', hstored', hk', -, hl', -⟩ := hdeleted.filed
      refine (hstored'.answers hk' hdeleted.housed now .get _).mp ?_
      simp only [KeyState.run, KeyState.liveLease, hl']
      split
      · rfl
      · rfl
    · have hvoid : Holds d _ _ key (·.Void l.fence fun _ => True) :=
        hdeleted.mono fun k hk => ⟨hk.2, fun l' hl' => by simp [hk.1, hlive] at hl'⟩
      exact hvoid.final hopen₂ hrest (fun _ _ => trivial) hleft₂ trivial
    · have hvoid : Holds d _ _ key (·.Void l.fence (l.expiresAt ≤ ·)) :=
        hdeleted.mono fun k hk => KeyState.void_expired hk.2 (by simp [hk.1, hlive])
      exact hvoid.final hopen₂ hrest hreadings hleft₂ hnow

/-- A lease expires and is deleted, and the clock goes back, but not to before the expiry. The fence is
done with in memory and in the directory, where the lease is still in the file. -/
theorem deletion_final_expired :
    let before : List LeaseEvent := [.opens, .serves ⟨⟨5000⟩, "a", .grant none "x" 0 ⟨1000⟩⟩]
    let later : List LeaseEvent := [.opens, .serves ⟨⟨7000⟩, "a", .extend ⟨1⟩ ⟨9000⟩⟩]
    let l : Lease := ⟨"a", "x", ⟨1⟩, ⟨6000⟩, 0⟩
    let deleted := (MemoryLeases.after {} (LeaseEvent.requests before)).run ⟨9000⟩ "a" (.delete ⟨1⟩)
    (∀ now, Disowned (fun op =>
      ((deleted.2.after (LeaseEvent.requests later)).run now "a" op).1) ⟨1⟩) ∧
    ∃ t₁ k t₂, left "leases" ⟨[("leases", .directory)]⟩ before = .ok t₁ ∧
      load t₁ "leases/a.json" = .ok k ∧ k.lease = some l ∧
      left "leases" (run t₁ "leases" ⟨9000⟩ "a" (.delete ⟨1⟩)).2 later = .ok t₂ ∧
      Disowned (fun op => (run t₂ "leases" ⟨6000⟩ "a" op).1) ⟨1⟩ := by
  intro before later l deleted
  have hroom : ∀ e ∈ extensions,
      (⟨[("leases", .directory)]⟩ : FileTree).lookup? (path "leases" "a" e) = none ∧
        (FileTree.writable ⟨[("leases", .directory)]⟩ (path "leases" "a" e)).isOk := by
    decide +kernel
  obtain ⟨hmemory, hdirectory⟩ := deletion_final "leases" "a" {} ⟨[("leases", .directory)]⟩ before later
    ⟨9000⟩ (by decide +kernel)
  obtain ⟨t₁, k, hleft, hload, hrest⟩ := hdirectory rfl
    (fun e he => ⟨(hroom e he).1, writable_isOk (hroom e he).2⟩) (by decide +kernel)
  have hfiled : (left "leases" ⟨[("leases", .directory)]⟩ before).toOption.bind
      (fun t => (load t "leases/a.json").toOption.bind KeyState.lease) = some l := by
    decide +kernel
  have hpath : path "leases" "a" ".json" = "leases/a.json" := by decide +kernel
  rw [hpath] at hload
  have hlease : k.lease = some l := by
    simpa only [hleft, hload, Except.toOption, Option.bind_some] using hfiled
  obtain ⟨-, -, t₂, hleft₂, -, hlater⟩ := hrest l hlease
  exact ⟨(hmemory l (by decide +kernel)).2, t₁, k, t₂, hleft, hload, hlease, hleft₂,
    hlater rfl (by decide +kernel) ⟨6000⟩ (Int.le_refl _)⟩

/-- A lease expires and is deleted, and the clock goes back to before the expiry: the directory shows the
lease, extends it by its fence, and grants none to who expects none. -/
theorem deletion_undone :
    let lease : Lease := ⟨"a", "x", ⟨1⟩, ⟨1000⟩, 0⟩
    let granted :=
      run ⟨[("leases", .directory)]⟩ "leases" ⟨0⟩ "a" (.grant none "x" 0 ⟨1000⟩)
    let deleted := run granted.2 "leases" ⟨2000⟩ "a" (.delete ⟨1⟩)
    granted.1.toOption = some (some lease) ∧ deleted.1.toOption = some false ∧
      (run deleted.2 "leases" ⟨500⟩ "a" .get).1.toOption = some (some lease) ∧
      (run deleted.2 "leases" ⟨500⟩ "a" (.extend ⟨1⟩ ⟨2000⟩)).1.toOption =
        some (some { lease with expiresAt := ⟨2500⟩ }) ∧
      (run deleted.2 "leases" ⟨500⟩ "a" (.grant none "y" 0 ⟨1000⟩)).1.toOption = some none ∧
      ¬Disowned (fun op => (run deleted.2 "leases" ⟨500⟩ "a" op).1) ⟨1⟩ := by
  intro lease granted deleted
  obtain ⟨hgranted, hdeleted, hshown, hextended, hrefused⟩ :
      granted.1.toOption = some (some lease) ∧ deleted.1.toOption = some false ∧
        (run deleted.2 "leases" ⟨500⟩ "a" .get).1.toOption = some (some lease) ∧
        (run deleted.2 "leases" ⟨500⟩ "a" (.extend ⟨1⟩ ⟨2000⟩)).1.toOption =
          some (some { lease with expiresAt := ⟨2500⟩ }) ∧
        (run deleted.2 "leases" ⟨500⟩ "a" (.grant none "y" 0 ⟨1000⟩)).1.toOption = some none := by
    decide +kernel
  refine ⟨hgranted, hdeleted, hshown, hextended, hrefused, fun hdisowned => ?_⟩
  obtain ⟨shown, hget, hfences⟩ := hdisowned.shows
  rw [hget] at hshown
  cases hshown
  exact hfences lease rfl rfl

end DirectoryLeases

end FencedSessions
