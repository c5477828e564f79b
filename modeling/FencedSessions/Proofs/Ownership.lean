import FencedSessions.Proofs.Keeping

/-! Ownership of a key comes in periods that exclude each other. A live lease stays as it is until a
call presents its fence, so no other lease is granted meanwhile; and once a fence has been overtaken
by a later grant, no call that presents it has any effect again. -/

namespace FencedSessions

/-- The fence that an operation presents, if it presents one. -/
def LeaseOp.fence? : LeaseOp → Option Fence
  | .grant expected .. => expected
  | .extend fence _ | .delete fence => some fence
  | .get | .enqueue .. | .position _ | .remove _ | .queueLength => none

namespace KeyState

variable {k : KeyState} {key : String} {now : Instant} {l : Lease} {f : Fence}

/-- A live lease outlasts every operation that does not present its fence, and none is granted. -/
theorem run_keeps (hl : k.lease = some l) (hlive : l.liveAt now) {op : LeaseOp}
    (hop : op.fence? ≠ some l.fence) :
    (k.run key now op).2.lease = some l ∧ (k.run key now op).2.lastFence = k.lastFence := by
  have hne {f : Fence} (h : some f ≠ some l.fence) : l.fence ≠ f := fun he => h (by rw [he])
  cases op with
  | grant expected holder position ttl =>
    have hlive' : k.liveLease now = some l := by simp [liveLease, hl, hlive]
    have hexpected : (k.liveLease now).map Lease.fence ≠ expected := by
      rw [hlive']
      exact fun h => hop h.symm
    simp only [run, grant, if_pos hexpected]
    exact ⟨hl, trivial⟩
  | extend f ttl =>
    have hf := hne hop
    simp only [run, extend, hl, hf, false_and, if_false, and_self]
  | delete f =>
    have hf := hne hop
    simp only [run, delete, hl, hf, if_false, and_self]
  | get => exact ⟨hl, rfl⟩
  | enqueue holder deadline => exact ⟨hl, rfl⟩
  | position ticket => exact ⟨hl, rfl⟩
  | remove ticket => exact ⟨hl, rfl⟩
  | queueLength => exact ⟨hl, rfl⟩

/-- A fence that was overtaken: later ones were issued, and none before it is on record. -/
structure Past (k : KeyState) (f : Fence) : Prop where
  issued : f < k.lastFence
  recorded : ∀ l, k.lease = some l → f < l.fence

/-- No fence on record is later than the last one that was issued. -/
def Bounded (k : KeyState) : Prop := ∀ l, k.lease = some l → l.fence ≤ k.lastFence

theorem past_of_lease (hb : k.Bounded) (hl : k.lease = some l) (hf : f < l.fence) : k.Past f where
  issued := Nat.lt_of_lt_of_le hf (hb l hl)
  recorded l' hl' := by
    rw [hl] at hl'
    cases hl'
    exact hf

theorem grant_lease (k : KeyState) (key : String) (now : Instant) (expected : Option Fence)
    (holder : String) (position : Nat) (ttl : Span) :
    let k' := (k.grant key now expected holder position ttl).2
    k' = k ∨ (k'.lastFence = k.lastFence.next ∧
      ∀ l, k'.lease = some l → k.lease = some l ∨ l.fence = k.lastFence.next) := by
  unfold grant
  split
  · exact Or.inl rfl
  · dsimp only
    split
    · exact Or.inr ⟨rfl, fun l hl => Or.inl hl⟩
    · refine Or.inr ⟨rfl, fun l hl => Or.inr ?_⟩
      cases hl
      rfl

theorem extend_lease (k : KeyState) (now : Instant) (fence : Fence) (ttl : Span) :
    let k' := (k.extend now fence ttl).2
    k'.lastFence = k.lastFence ∧
      ∀ l, k'.lease = some l → ∃ l', k.lease = some l' ∧ l.fence = l'.fence := by
  unfold extend
  split
  · rename_i l' hl'
    split
    · split
      · exact ⟨rfl, fun l hl => ⟨l, hl, rfl⟩⟩
      · refine ⟨rfl, fun l hl => ⟨l', hl', ?_⟩⟩
        cases hl
        rfl
    · exact ⟨rfl, fun l hl => ⟨l, hl, rfl⟩⟩
  · exact ⟨rfl, fun l hl => ⟨l, hl, rfl⟩⟩

theorem delete_lease (k : KeyState) (now : Instant) (fence : Fence) :
    let k' := (k.delete now fence).2
    k'.lastFence = k.lastFence ∧ ∀ l, k'.lease = some l → k.lease = some l := by
  unfold delete
  split
  · split
    · exact ⟨rfl, fun l hl => by cases hl⟩
    · exact ⟨rfl, fun l hl => hl⟩
  · exact ⟨rfl, fun l hl => hl⟩

/-- What an operation does to the record: a lease is kept, at most with another expiry, or it is gone,
or a lease with a later fence than any before is granted. -/
theorem run_lease (k : KeyState) (key : String) (now : Instant) (op : LeaseOp) :
    let k' := (k.run key now op).2
    (k'.lastFence = k.lastFence ∨ k'.lastFence = k.lastFence.next) ∧
      ∀ l, k'.lease = some l → (∃ l', k.lease = some l' ∧ l.fence = l'.fence) ∨
        (k'.lastFence = k.lastFence.next ∧ l.fence = k.lastFence.next) := by
  have hsame {k' : KeyState} (hf : k'.lastFence = k.lastFence)
      (hl : ∀ l, k'.lease = some l → ∃ l', k.lease = some l' ∧ l.fence = l'.fence) :
      (k'.lastFence = k.lastFence ∨ k'.lastFence = k.lastFence.next) ∧
        ∀ l, k'.lease = some l → (∃ l', k.lease = some l' ∧ l.fence = l'.fence) ∨
          (k'.lastFence = k.lastFence.next ∧ l.fence = k.lastFence.next) :=
    ⟨Or.inl hf, fun l h => Or.inl (hl l h)⟩
  cases op with
  | grant expected holder position ttl =>
    rcases k.grant_lease key now expected holder position ttl with heq | ⟨hf, hl⟩
    · exact hsame (congrArg lastFence heq) fun l h => ⟨l, (congrArg lease heq).symm.trans h, rfl⟩
    · refine ⟨Or.inr hf, fun l h => ?_⟩
      rcases hl l h with hold | hnew
      · exact Or.inl ⟨l, hold, rfl⟩
      · exact Or.inr ⟨hf, hnew⟩
  | extend fence ttl =>
    obtain ⟨hf, hl⟩ := k.extend_lease now fence ttl
    exact hsame hf hl
  | delete fence =>
    obtain ⟨hf, hl⟩ := k.delete_lease now fence
    exact hsame hf fun l h => ⟨l, hl l h, rfl⟩
  | get => exact hsame rfl fun l h => ⟨l, h, rfl⟩
  | enqueue holder deadline => exact hsame rfl fun l h => ⟨l, h, rfl⟩
  | position ticket => exact hsame rfl fun l h => ⟨l, h, rfl⟩
  | remove ticket => exact hsame rfl fun l h => ⟨l, h, rfl⟩
  | queueLength => exact hsame rfl fun l h => ⟨l, h, rfl⟩

theorem Bounded.run (h : k.Bounded) (key : String) (now : Instant) (op : LeaseOp) :
    (k.run key now op).2.Bounded := by
  intro l hl
  obtain ⟨hlast, hlease⟩ := k.run_lease key now op
  rcases hlease l hl with ⟨l', hl', hf⟩ | ⟨hf, hl⟩
  · have hle : l'.fence.value ≤ k.lastFence.value := h l' hl'
    rw [Fence.le_def, hf]
    rcases hlast with hlast | hlast <;> rw [hlast]
    · exact hle
    · exact Nat.le_succ_of_le hle
  · rw [hf, hl]
    exact Nat.le_refl _

theorem Past.run (h : k.Past f) (key : String) (now : Instant) (op : LeaseOp) :
    (k.run key now op).2.Past f := by
  obtain ⟨hlast, hlease⟩ := k.run_lease key now op
  have hnext : f < k.lastFence.next := Nat.lt_succ_of_lt h.issued
  refine ⟨?_, fun l hl => ?_⟩
  · rcases hlast with hlast | hlast <;> rw [hlast]
    · exact h.issued
    · exact hnext
  · rcases hlease l hl with ⟨l', hl', hf⟩ | ⟨-, hf⟩
    · rw [hf]
      exact h.recorded l' hl'
    · rw [hf]
      exact hnext

theorem Past.ne (h : k.Past f) (hl : k.lease = some l) : l.fence ≠ f := by
  have hlt : f.value < l.fence.value := h.recorded l hl
  intro he
  rw [he] at hlt
  exact Nat.lt_irrefl _ hlt

/-- Whoever presents a fence that was overtaken is turned away. -/
theorem Past.extend (h : k.Past f) (now : Instant) (ttl : Span) :
    k.extend now f ttl = (.ok none, k) := by
  unfold KeyState.extend
  split
  · rename_i l hl
    rw [if_neg fun he => h.ne hl he.1]
  · rfl

theorem Past.delete (h : k.Past f) (now : Instant) : k.delete now f = (false, k) := by
  unfold KeyState.delete
  split
  · rename_i l hl
    rw [if_neg (h.ne hl)]
  · rfl

theorem Past.liveLease (h : k.Past f) (hl : k.liveLease now = some l) : l.fence ≠ f := by
  unfold KeyState.liveLease at hl
  exact h.ne (Option.eq_some_of_filter_eq_some hl)

end KeyState

namespace Site

variable {s s' : Site} {key : String} {k : KeyState}

/-- Whether a node's call about a key gets to the lease store: its breaker lets it through, it does not
fail on the way, and the store can carry it out. -/
def reaches (s : Site) (n : Nat) (key : String) (op : LeaseOp) : Bool :=
  match ((s.breaker n).pass (s.settings n).breaker s.now).1, (s.note op.callName).1 with
  | .ok (), none => s.opens key
  | .ok (), some d => d.error.isNone && s.opens key
  | .error _, _ => false

theorem reaches_opens {n : Nat} {op : LeaseOp} (h : s.reaches n key op) :
    ((s.breaker n).pass (s.settings n).breaker s.now).1 = .ok () ∧
      (∀ d, (s.note op.callName).1 = some d → d.error = none) ∧ s.opens key := by
  unfold reaches at h
  split at h
  · rename_i hpass hnote
    refine ⟨hpass, fun d hd => ?_, h⟩
    rw [hnote] at hd
    cases hd
  · rename_i d hpass hnote
    obtain ⟨hd, ho⟩ := (Bool.and_eq_true _ _).mp h
    refine ⟨hpass, fun d' hd' => ?_, ho⟩
    rw [hnote] at hd'
    cases hd'
    exact Option.isNone_iff_eq_none.mp hd
  · cases h

/-- A call that gets to the store and succeeds there is answered. -/
theorem guarded_reaching {n : Nat} {op : LeaseOp} {a : op.Answer} (h : s.reaches n key op)
    (ha : (s.leaseRun key op).1 = .ok a) : (s.guarded n key op).1 = .ok a := by
  obtain ⟨hpass, hnote, -⟩ := reaches_opens h
  unfold guarded
  split
  · rename_i e b heq
    rw [heq] at hpass
    cases hpass
  · rename_i b heq
    have hcalm := (calm_setBreaker s n b).trans (calm_note (s.setBreaker n b) op.callName)
    have hrun := (leaseRun_calm key op hcalm rfl).1.trans ha
    have hlease : ((s.setBreaker n b).lease key op).1 = .ok a := by
      have hnote' : ∀ d, ((s.setBreaker n b).note op.callName).1 = some d → d.error = none := hnote
      unfold lease disturbed
      generalize (s.setBreaker n b).note op.callName = noted at hnote' hrun
      obtain ⟨found, t⟩ := noted
      cases found with
      | none => exact hrun
      | some d =>
        simp only [hnote' d rfl]
        dsimp only at hrun
        generalize t.leaseRun key op = ran at hrun
        obtain ⟨answer, u⟩ := ran
        cases hrun
        cases d.advance <;> rfl
    unfold unguarded
    generalize (s.setBreaker n b).lease key op = leased at hlease
    obtain ⟨answer, t⟩ := leased
    cases hlease
    rfl

/-- Nobody renews a lease with a fence that was overtaken. -/
theorem renew_past (hk : s.Keeps key k) {n : Nat} {f : Fence} {d : Span} (hf : k.Past f)
    (h : s.reaches n key (.extend f d)) :
    (s.renew n key f d).1 = .error (.error (.leaseLost key f)) := by
  have ha : (s.leaseRun key (.extend f d)).1 = .ok none :=
    leaseRun_opens hk (reaches_opens h).2.2 (congrArg Prod.fst (hf.extend s.now d)) rfl
  have hanswer := guarded_reaching h ha
  unfold renew
  generalize s.guarded n key (.extend f d) = called at hanswer
  obtain ⟨answer, t⟩ := called
  cases hanswer
  rfl

theorem check_past (hk : s.Keeps key k) {n : Nat} {f : Fence} (hf : k.Past f)
    (h : s.reaches n key .get) :
    (s.check n key f).1 = .error (.error (.leaseLost key f)) := by
  have ha : (s.leaseRun key .get).1 = .ok (k.liveLease s.now) :=
    leaseRun_opens hk (reaches_opens h).2.2 rfl rfl
  have hanswer := guarded_reaching h ha
  unfold check
  generalize s.guarded n key .get = called at hanswer
  obtain ⟨answer, t⟩ := called
  cases hl : k.liveLease s.now with
  | none =>
    rw [hl] at hanswer
    cases hanswer
    rfl
  | some l =>
    rw [hl] at hanswer
    cases hanswer
    exact congrArg Prod.fst (if_neg (hf.liveLease hl))

end Site

namespace Crowd

/-- Whether the clock never goes back. -/
def forward (c : Crowd) (acts : List Act) : Bool :=
  c.along (fun c a => c.now ≤ (c.act a).now) acts

/-- Whether an act makes a call to the lease store that presents the fence for the key. -/
def presents (key : String) (f : Fence) (c : Crowd) (a : Act) : Bool :=
  match c.call? a with
  | some (key', op) => key' = key && op.fence? = some f
  | none => false

/-- Whether all calls to the lease store are as a key asks for. -/
def fitting (key : String) (c : Crowd) (acts : List Act) : Bool :=
  c.along (fun c a => c.site.fits key (c.call? a)) acts

theorem along_append (p : Crowd → Act → Bool) (c : Crowd) (before after : List Act) :
    c.along p (before ++ after) = (c.along p before && (c.run before).along p after) := by
  induction before generalizing c with
  | nil => simp [along, run]
  | cons a before ih =>
    rw [List.cons_append, along, along, ih, Bool.and_assoc]
    rfl

variable {c : Crowd} {key : String} {k : KeyState}

/-- A live lease outlasts an act that does not present its fence. -/
theorem presents_keeps {l : Lease} (hl : k.lease = some l) (hlive : l.liveAt c.now) {a : Act}
    (ha : presents key l.fence c a = false) {k' : KeyState}
    (hk' : k' = k ∨ ∃ op, c.call? a = some (key, op) ∧ k' = (k.run key c.now op).2) :
    k'.lease = some l ∧ k'.lastFence = k.lastFence := by
  rcases hk' with rfl | ⟨op, hcall, rfl⟩
  · exact ⟨hl, rfl⟩
  · refine KeyState.run_keeps hl hlive fun hf => ?_
    simp [presents, hcall, hf] at ha

theorem now_of_forward {acts : List Act} (h : c.forward acts) : c.now ≤ (c.run acts).now :=
  along_invariant (P := fun d => c.now ≤ d.now)
    (fun _ _ hstep hle => Int.le_trans hle (of_decide_eq_true hstep)) (Int.le_refl _) h

/-- What every operation on a key preserves, every run preserves. -/
theorem run_keeps (h : c.site.Keeps key k) (hb : k.Bounded) {acts : List Act}
    (hfit : c.fitting key acts) :
    ∃ k', (c.run acts).site.Keeps key k' ∧ k'.Bounded ∧ ∀ f, k.Past f → k'.Past f := by
  refine along_invariant (P := fun d => ∃ k', d.site.Keeps key k' ∧ k'.Bounded ∧ ∀ f, k.Past f → k'.Past f)
    ?_ ⟨k, h, hb, fun _ hf => hf⟩ hfit
  rintro d a hone ⟨k', h', hb', hpast⟩
  obtain ⟨k₁, h₁, rfl | ⟨op, -, rfl⟩⟩ := act_keeps h' hone
  · exact ⟨k₁, h₁, hb', hpast⟩
  · exact ⟨_, h₁, hb'.run key d.now op, fun f hf => (hpast f hf).run key d.now op⟩

/-- A lease outlasts a run in which nothing presents its fence, as long as it is not expired. -/
theorem run_outlasts (h : c.site.Keeps key k) {l : Lease} (hl : k.lease = some l)
    {acts : List Act} (hfit : c.fitting key acts) (hforward : c.forward acts)
    (hquiet : c.along (fun c a => !presents key l.fence c a) acts)
    (hlive : l.liveAt (c.run acts).now) :
    ∃ k', (c.run acts).site.Keeps key k' ∧ k'.lease = some l ∧ k'.lastFence = k.lastFence := by
  refine (run_induction (P := fun d acts => d.fitting key acts ∧ d.forward acts ∧
    d.along (fun c a => !presents key l.fence c a) acts ∧ l.liveAt (d.run acts).now ∧
    ∃ k', d.site.Keeps key k' ∧ k'.lease = some l ∧ k'.lastFence = k.lastFence)
    ?_ ⟨hfit, hforward, hquiet, hlive, k, h, hl, rfl⟩).2.2.2.2
  rintro d a acts ⟨hfit, hforward, hquiet, hlive, k', h', hl', hlast⟩
  -- the clock never goes back, so a lease that is live at the end is live all along
  have hnow : d.now.ns ≤ (d.run (a :: acts)).now.ns := now_of_forward hforward
  have hexpiry : (d.run (a :: acts)).now.ns < l.expiresAt.ns := of_decide_eq_true hlive
  have hlive' : l.liveAt d.now := decide_eq_true (show d.now.ns < l.expiresAt.ns by omega)
  obtain ⟨hfits, hfit'⟩ := (Bool.and_eq_true _ _).mp hfit
  obtain ⟨-, hforward'⟩ := (Bool.and_eq_true _ _).mp hforward
  obtain ⟨hone, hquiet'⟩ := (Bool.and_eq_true _ _).mp hquiet
  obtain ⟨k₁, h₁, hk₁⟩ := act_keeps h' hfits
  obtain ⟨hl₁, hlast₁⟩ := presents_keeps hl' hlive' (by simpa using hone) hk₁
  exact ⟨hfit', hforward', hquiet', hlive, k₁, h₁, hl₁, hlast₁.trans hlast⟩

/-- A release with a fence that was overtaken changes nothing. -/
theorem release_past (h : c.site.Keeps key k) {f : Fence} (hf : k.Past f) (n : Nat) (key' : String) :
    (c.act (.release n key f)).site.keyState key' = c.site.keyState key' := by
  have hrun : k.run key c.site.now (.delete f) = (.ok false, k) := by
    simp [KeyState.run, hf.delete]
  obtain ⟨answer, t, hcalled, he⟩ := c.act_called (show c.call? (.release n key f) = _ from rfl)
  rw [he.alike.keyState]
  exact hcalled.keyState (Site.leaseRun_keyState h hrun rfl key')

end Crowd

/-- A site whose lease store has nothing on record for a key, and serves it along a run. A directory
serves a key if it keeps the state in a file of its own, in which all numbers and times have room. -/
def Site.Serves (s : Site) (key : String) (acts : List Act) : Prop :=
  match s.leases with
  | .memory m => m = {}
  | .directory d =>
    let file := DirectoryLeases.path d key ".json"
    s.files.lookup? file = none ∧ s.Apart file ∧ s.crowd.fitting key acts

namespace Crowd

theorem fitting_memory {c : Crowd} {key : String} {acts : List Act} {m : MemoryLeases}
    (h : c.site.leases = .memory m) : c.fitting key acts := by
  induction acts generalizing c m with
  | nil => rfl
  | cons a acts ih =>
    have hone : c.site.fits key (c.call? a) := by
      unfold Site.fits
      rw [h]
      split <;> rfl
    obtain ⟨m', hm'⟩ := act_memory h a
    exact (Bool.and_eq_true _ _).mpr ⟨hone, ih hm'⟩

theorem Serves.keeps {s : Site} {key : String} {acts : List Act} (h : s.Serves key acts) :
    s.Keeps key {} ∧ s.crowd.fitting key acts := by
  unfold Site.Serves at h
  cases hs : s.leases with
  | memory m =>
    simp only [hs] at h
    subst h
    exact ⟨(Site.keeps_memory hs).mpr rfl, fitting_memory hs⟩
  | directory d =>
    simp only [hs] at h
    obtain ⟨hnone, hapart, hfit⟩ := h
    exact ⟨(Site.keeps_directory hs).mpr
      ⟨Or.inr ⟨hnone, rfl⟩, KeyState.storable_empty, hapart⟩, hfit⟩

/-- Ownership periods exclude each other. Let a lease be on record for a key after some run. As long
as it is not expired and nothing has presented its fence, it stays on record as it is and no fence is
issued, so no other lease is granted. And from then on, whatever happens, a renewal or a check with
an earlier fence that gets to the store is told that the lease is lost, and a release with it changes
nothing. -/
theorem ownership_exclusive (s : Site) (before after : List Act) (key : String) (l : Lease)
    (h : s.Serves key (before ++ after)) :
    let c := s.crowd.run before
    let d := c.run after
    (c.site.keyState key).lease = some l →
    (c.forward after → c.along (fun c a => !presents key l.fence c a) after → l.liveAt d.now →
      (d.site.keyState key).lease = some l ∧
      (d.site.keyState key).lastFence = (c.site.keyState key).lastFence) ∧
    ∀ f < l.fence, ∀ n,
      (∀ extension, d.site.reaches n key (.extend f extension) →
        (d.site.renew n key f extension).1 = .error (.error (.leaseLost key f))) ∧
      (d.site.reaches n key .get →
        (d.site.check n key f).1 = .error (.error (.leaseLost key f))) ∧
      ∀ key', (d.act (.release n key f)).site.keyState key' = d.site.keyState key' := by
  intro c d hl
  obtain ⟨hkeeps, hfit⟩ := Serves.keeps h
  rw [fitting, along_append, Bool.and_eq_true] at hfit
  obtain ⟨k, hc, hbounded, -⟩ := run_keeps (c := s.crowd) hkeeps (fun l hl => by cases hl) hfit.1
  rw [hc.keyState] at hl ⊢
  refine ⟨fun hforward hquiet hlive => ?_, fun f hf n => ?_⟩
  · obtain ⟨k', hd, hl', hlast⟩ := run_outlasts hc hl hfit.2 hforward hquiet hlive
    rw [hd.keyState]
    exact ⟨hl', hlast⟩
  · obtain ⟨k', hd, -, hpast⟩ := run_keeps hc hbounded hfit.2
    have hf' := hpast f (KeyState.past_of_lease hbounded hl hf)
    exact ⟨fun extension hreach => Site.renew_past hd hf' hreach,
      fun hreach => Site.check_past hd hf' hreach, release_past hd hf' n⟩

set_option maxRecDepth 4096 in
/-- A holder that slept past its expiry was replaced: its renewals, checks and releases come to
nothing, the new lease stands, and a third caller waits. -/
theorem ownership_exclusive_takeover :
    let acquire (holder : String) : Act := .acquire ⟨0, "k", holder, ⟨5000000000⟩, ⟨30000000000⟩⟩
    let before := [acquire "a"] ++ List.replicate 6 (.go 0) ++ [.set ⟨40000000000⟩, acquire "b"] ++
      List.replicate 6 (.go 1)
    let after := [.renew 0 "k" ⟨1⟩ ⟨30000000000⟩, .release 0 "k" ⟨1⟩, acquire "c"] ++
      List.replicate 6 (.go 2) ++ [.set ⟨50000000000⟩]
    let d := (Site.single.crowd.run before).run after
    (d.site.keyState "k").lease = some ⟨"k", "b", ⟨2⟩, ⟨70000000000⟩, 0⟩ ∧
    (d.site.renew 0 "k" ⟨1⟩ ⟨30000000000⟩).1 = .error (.error (.leaseLost "k" ⟨1⟩)) ∧
    (d.site.check 0 "k" ⟨1⟩).1 = .error (.error (.leaseLost "k" ⟨1⟩)) ∧
    ∀ key', (d.act (.release 0 "k" ⟨1⟩)).site.keyState key' = d.site.keyState key' := by
  intro acquire before after d
  obtain ⟨hkeeps, hpast⟩ := ownership_exclusive Site.single before after "k"
    ⟨"k", "b", ⟨2⟩, ⟨70000000000⟩, 0⟩ rfl (by decide +kernel)
  obtain ⟨hrenew, hcheck, hrelease⟩ := hpast ⟨1⟩ (by decide) 0
  exact ⟨(hkeeps (by decide +kernel) (by decide +kernel) (by decide +kernel)).1,
    hrenew _ (by decide +kernel), hcheck (by decide +kernel), hrelease⟩

end Crowd

end FencedSessions
