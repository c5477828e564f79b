import FencedSessions.Proofs.Isolation
import FencedSessions.Proofs.Keeping

/-! The lease store in a directory answers as the one in memory does. The two do not hold the same
states: an operation whose answer says that nothing was changed is carried out in memory but not put
back in the file, so that an expired lease which its holder deletes is gone from memory and stays in
the file. As long as the clock never goes back, no answer tells the difference. -/

namespace FencedSessions

/-- Whether the numbers and times of an operation are within the ranges of their fields, and the
expiry that it asks for is on the time line. -/
def LeaseOp.inRange (now : Instant) : LeaseOp → Bool
  | .grant _ _ place ttl => place < Word.size64 && (now.after? ttl).isSome
  | .extend _ ttl => (now.after? ttl).isSome
  | .enqueue _ deadline => deadline.Held
  | .delete _ | .get | .position _ | .remove _ | .queueLength => true

namespace KeyState

variable {now : Instant} {key : String} {op : LeaseOp} {k k' filed filed' : KeyState}

/-- What memory and a file hold of a key match: it is the same, but for a lease that is expired. -/
def Matches (now : Instant) (k filed : KeyState) : Prop :=
  k = filed ∨ filed.liveLease now = none ∧ k = { filed with lease := none }

theorem Matches.trans (h : Matches now k k') (h' : Matches now k' filed) : Matches now k filed := by
  rcases h with rfl | ⟨hdead, rfl⟩
  · exact h'
  · rcases h' with rfl | ⟨hdead', rfl⟩
    · exact Or.inr ⟨hdead, rfl⟩
    · exact Or.inr ⟨hdead', rfl⟩

/-- An expired lease stays expired. -/
theorem Matches.later {later : Instant} (h : Matches now k filed) (hle : now ≤ later) :
    Matches later k filed := by
  rcases h with rfl | ⟨hdead, rfl⟩
  · exact Or.inl rfl
  · refine Or.inr ⟨?_, rfl⟩
    unfold liveLease at hdead ⊢
    rw [Option.filter_eq_none_iff] at hdead ⊢
    intro l hl hlive
    refine hdead l hl (decide_eq_true ?_)
    exact Int.lt_of_le_of_lt hle (of_decide_eq_true hlive)

/-- An operation within range has an answer. -/
theorem run_answers (k : KeyState) (key : String) (h : op.inRange now) :
    ∃ a, (k.run key now op).1 = .ok a := by
  cases op with
  | grant expected holder position ttl =>
    obtain ⟨expiry, hexpiry⟩ := Option.isSome_iff_exists.mp ((Bool.and_eq_true _ _).mp h).2
    change ∃ a, (k.grant key now expected holder position ttl).1 = .ok a
    unfold grant
    split
    · exact ⟨_, rfl⟩
    · rw [hexpiry]
      exact ⟨_, rfl⟩
  | extend fence ttl =>
    obtain ⟨expiry, hexpiry⟩ := Option.isSome_iff_exists.mp (show (now.after? ttl).isSome from h)
    change ∃ a, (k.extend now fence ttl).1 = .ok a
    unfold extend
    split
    · split
      · rw [hexpiry]
        exact ⟨_, rfl⟩
      · exact ⟨_, rfl⟩
    · exact ⟨_, rfl⟩
  | delete fence => exact ⟨_, rfl⟩
  | get => exact ⟨_, rfl⟩
  | enqueue holder deadline => exact ⟨_, rfl⟩
  | position ticket => exact ⟨_, rfl⟩
  | remove ticket => exact ⟨_, rfl⟩
  | queueLength => exact ⟨_, rfl⟩

/-- What an operation computes and does not put back matches what was there. -/
theorem run_unwritten {a : op.Answer} (h : (k.run key now op).1 = .ok a)
    (hwrites : op.writes a = false) : Matches now (k.run key now op).2 k := by
  cases op with
  | grant expected holder position ttl =>
    simp only [run, grant] at h ⊢
    split at h
    · rename_i hexpected
      rw [if_pos hexpected]
      exact Or.inl rfl
    · split at h
      · cases h
      · cases h
        cases hwrites
  | extend fence ttl =>
    simp only [run, extend] at h ⊢
    split at h
    · split at h
      · split at h
        · cases h
        · cases h
          cases hwrites
      · rename_i hexpected
        rw [if_neg hexpected]
        exact Or.inl rfl
    · exact Or.inl rfl
  | delete fence =>
    simp only [run, delete] at h ⊢
    split at h
    · rename_i l hl
      split at h
      · rename_i hfence
        cases h
        rw [if_pos hfence]
        refine Or.inr ⟨?_, rfl⟩
        have hdead : l.liveAt now = false := hwrites
        simp [liveLease, hl, hdead]
      · rename_i hfence
        rw [if_neg hfence]
        exact Or.inl rfl
    · exact Or.inl rfl
  | get => exact Or.inl rfl
  | remove ticket =>
    cases h
    have hnone : ∀ t ∈ k.tickets, t.number ≠ ticket := by
      simpa [LeaseOp.writes, remove] using hwrites
    refine Or.inl ?_
    have hall : k.tickets.filter (·.number ≠ ticket) = k.tickets :=
      List.filter_eq_self.mpr fun t ht => by simpa using hnone t ht
    simp only [run, remove, hall]
  | enqueue holder deadline => cases hwrites
  | position ticket => cases hwrites
  | queueLength => cases hwrites

/-- An expired lease makes no difference to an answer, nor to what is computed next. -/
theorem run_expired (h : filed.liveLease now = none) :
    let k : KeyState := { filed with lease := none }
    (k.run key now op).1 = (filed.run key now op).1 ∧
      Matches now (k.run key now op).2 (filed.run key now op).2 := by
  have hempty : ({ filed with lease := none } : KeyState).liveLease now = none := rfl
  have hdead (l : Lease) (hl : filed.lease = some l) : l.liveAt now = false := by
    simpa [liveLease, hl] using h
  cases op with
  | grant expected holder position ttl =>
    simp only [run, grant, h, hempty]
    split
    · exact ⟨rfl, Or.inr ⟨h, rfl⟩⟩
    · split
      · exact ⟨rfl, Or.inr ⟨h, rfl⟩⟩
      · exact ⟨rfl, Or.inl rfl⟩
  | extend fence ttl =>
    simp only [run, extend]
    split
    · rename_i l hl
      rw [if_neg fun hlive => by simp [hdead l hl] at hlive]
      exact ⟨rfl, Or.inr ⟨h, rfl⟩⟩
    · exact ⟨rfl, Or.inr ⟨h, rfl⟩⟩
  | delete fence =>
    simp only [run, delete]
    split
    · rename_i l hl
      split
      · exact ⟨congrArg Except.ok (hdead l hl).symm, Or.inl rfl⟩
      · exact ⟨rfl, Or.inr ⟨h, rfl⟩⟩
    · exact ⟨rfl, Or.inr ⟨h, rfl⟩⟩
  | get => exact ⟨congrArg Except.ok h.symm, Or.inr ⟨h, rfl⟩⟩
  | enqueue holder deadline => exact ⟨rfl, Or.inr ⟨h, rfl⟩⟩
  | position ticket => exact ⟨rfl, Or.inr ⟨h, rfl⟩⟩
  | remove ticket => exact ⟨rfl, Or.inr ⟨h, rfl⟩⟩
  | queueLength => exact ⟨rfl, Or.inr ⟨h, rfl⟩⟩

/-- What a file holds after an operation: what it computes, if it is put back. -/
def filing (filed : KeyState) (key : String) (now : Instant) (op : LeaseOp) (a : op.Answer) : KeyState :=
  if op.writes a then (filed.run key now op).2 else filed

/-- Matching states give the same answer, and they match again. -/
theorem Matches.run (h : Matches now k filed) (hrange : op.inRange now) (key : String) :
    ∃ a, (k.run key now op).1 = .ok a ∧ (filed.run key now op).1 = .ok a ∧
      Matches now (k.run key now op).2 (filed.filing key now op a) := by
  obtain ⟨a, ha⟩ := filed.run_answers key hrange
  have hboth : (k.run key now op).1 = (filed.run key now op).1 ∧
      Matches now (k.run key now op).2 (filed.run key now op).2 := by
    rcases h with rfl | ⟨hdead, rfl⟩
    · exact ⟨rfl, Or.inl rfl⟩
    · exact run_expired hdead
  refine ⟨a, hboth.1.trans ha, ha, ?_⟩
  unfold filing
  split
  · exact hboth.2
  · rename_i hwrites
    exact hboth.2.trans (run_unwritten ha (by simpa using hwrites))

/-- The counters of a key have room for so many more operations. -/
structure Room (n : Nat) (k : KeyState) : Prop where
  fence : k.lastFence.value + n < Word.size64
  ticket : k.lastTicket + n < Word.size64
  queue : k.tickets.length + n < Word.size64

theorem Room.less {n : Nat} (h : k.Room (n + 1)) : k.Room n :=
  ⟨Nat.lt_of_succ_lt h.fence, Nat.lt_of_succ_lt h.ticket, Nat.lt_of_succ_lt h.queue⟩

theorem storable_prune (h : k.Storable) (now : Instant) : (k.prune now).Storable :=
  ⟨h.lease, h.lastFence, fun t ht => h.tickets t (List.mem_filter.mp ht).1, h.lastTicket⟩

theorem room_prune {n : Nat} (h : k.Room n) (now : Instant) : (k.prune now).Room n where
  fence := h.fence
  ticket := h.ticket
  queue := by
    have hle : (k.prune now).tickets.length ≤ k.tickets.length := List.length_filter_le _ _
    have hqueue := h.queue
    omega

/-- A grant uses up one fence, and its lease can be stored. -/
theorem Storable.grant (h : k.Storable) {n place : Nat} (hroom : k.Room (n + 1))
    (hplace : place < Word.size64) (key : String) (now : Instant) (expected : Option Fence)
    (holder : String) (ttl : Span) :
    (k.grant key now expected holder place ttl).2.Storable ∧
      (k.grant key now expected holder place ttl).2.Room n := by
  have hless := hroom.less
  have hnext : k.lastFence.next.value + n < Word.size64 := by
    have := hroom.fence
    simp only [Fence.next]
    omega
  have hfence : k.lastFence.next.value < Word.size64 := Nat.lt_of_le_of_lt (Nat.le_add_right _ _) hnext
  unfold KeyState.grant
  split
  · exact ⟨h, hless⟩
  · dsimp only
    split
    · exact ⟨⟨h.lease, hfence, h.tickets, h.lastTicket⟩, ⟨hnext, hless.ticket, hless.queue⟩⟩
    · rename_i expiry hexpiry
      refine ⟨⟨fun l hl => ?_, hfence, h.tickets, h.lastTicket⟩, ⟨hnext, hless.ticket, hless.queue⟩⟩
      cases hl
      exact ⟨hfence, Instant.held_after hexpiry, hplace⟩

/-- Queuing uses up one ticket and one place, and the ticket can be stored. -/
theorem Storable.enqueue (h : k.Storable) {n : Nat} (hroom : k.Room (n + 1)) {deadline : Instant}
    (hdeadline : deadline.Held) (now : Instant) (holder : String) :
    (k.enqueue now holder deadline).2.Storable ∧ (k.enqueue now holder deadline).2.Room n := by
  have hpruned := storable_prune h now
  have hroom' := room_prune hroom now
  have hticket := hroom'.ticket
  have hqueue := hroom'.queue
  have hnumber : (k.prune now).lastTicket + 1 < Word.size64 := by omega
  refine ⟨⟨hpruned.lease, hpruned.lastFence, fun t ht => ?_, hnumber⟩, ⟨hroom.less.fence, ?_, ?_⟩⟩
  · rcases List.mem_append.mp ht with hold | hnew
    · exact hpruned.tickets t hold
    · rw [List.mem_singleton.mp hnew]
      have hlength : (k.prune now).tickets.length < Word.size64 := by omega
      exact ⟨hnumber, hdeadline, hlength⟩
  · simp only [KeyState.enqueue]
    omega
  · simp only [KeyState.enqueue, List.length_append, List.length_singleton]
    omega

/-- An operation within range computes a state that can be stored, while the counters have room. -/
theorem Storable.run (h : k.Storable) {n : Nat} (hroom : k.Room (n + 1)) (hrange : op.inRange now)
    (key : String) : (k.run key now op).2.Storable ∧ (k.run key now op).2.Room n := by
  have hless := hroom.less
  cases op with
  | grant expected holder place ttl =>
    obtain ⟨hplace, -⟩ := (Bool.and_eq_true _ _).mp hrange
    exact h.grant hroom (of_decide_eq_true hplace) key now expected holder ttl
  | extend fence ttl =>
    simp only [KeyState.run, extend]
    split
    · rename_i l hl
      split
      · split
        · exact ⟨h, hless⟩
        · rename_i expiry hexpiry
          refine ⟨⟨fun l' hl' => ?_, h.lastFence, h.tickets, h.lastTicket⟩,
            ⟨hless.fence, hless.ticket, hless.queue⟩⟩
          cases hl'
          obtain ⟨hl₁, -, hl₂⟩ := h.lease l hl
          exact ⟨hl₁, Instant.held_after hexpiry, hl₂⟩
      · exact ⟨h, hless⟩
    · exact ⟨h, hless⟩
  | delete fence =>
    simp only [KeyState.run, delete]
    split
    · split
      · refine ⟨⟨fun l hl => ?_, h.lastFence, h.tickets, h.lastTicket⟩,
          ⟨hless.fence, hless.ticket, hless.queue⟩⟩
        cases hl
      · exact ⟨h, hless⟩
    · exact ⟨h, hless⟩
  | get => exact ⟨h, hless⟩
  | enqueue holder deadline => exact h.enqueue hroom (of_decide_eq_true hrange) now holder
  | position ticket => exact ⟨storable_prune h now, room_prune hless now⟩
  | remove ticket =>
    refine ⟨⟨h.lease, h.lastFence, fun t ht => h.tickets t (List.mem_filter.mp ht).1, h.lastTicket⟩,
      ⟨hless.fence, hless.ticket, ?_⟩⟩
    have hle : (k.tickets.filter (·.number ≠ ticket)).length ≤ k.tickets.length :=
      List.length_filter_le _ _
    have hqueue := hless.queue
    exact Nat.lt_of_le_of_lt (Nat.add_le_add_right hle n) hqueue
  | queueLength => exact ⟨storable_prune h now, room_prune hless now⟩

end KeyState

namespace FileTree

variable {t t' : FileTree} {p q : String}

/-- A file can be put at a path at any time: its name is accepted, there is no directory of this name,
and there is one to hold the file. -/
structure Allows (t : FileTree) (p : String) : Prop where
  name : Nameable p
  free : t.lookup? p ≠ some .directory
  held : parent p = "" ∨ t.lookup? (parent p) = some .directory
  clear : ∀ content, t.lookup? (parent p) ≠ some (.text content)

theorem find_missing (h : Nameable p) (hnone : t.lookup? p = none)
    (hclear : ∀ content, t.lookup? (parent p) ≠ some (.text content)) : t.find p = .error .notFound := by
  -- the parent is no file, which decides the last case of the look-up
  simp only [find, h.1, h.2, hnone, Bool.false_eq_true, if_false]

theorem Allows.writable (h : t.Allows p) : t.writable p = .ok () := by
  unfold FileTree.writable
  cases hp : t.lookup? p with
  | none => simp [find_missing h.name hp h.clear, h.held]
  | some e =>
    cases e with
    | directory => exact absurd hp h.free
    | text content => simp [find, h.name.1, h.name.2, hp]

theorem writable_isOk (h : (t.writable p).isOk) : t.writable p = .ok () := by
  cases hw : t.writable p with
  | ok u => rfl
  | error f =>
    rw [hw] at h
    cases h

/-- Where a file can be made there can always be one. -/
theorem Allows.of_writable (hnone : t.lookup? p = none) (h : t.writable p = .ok ()) : t.Allows p := by
  have hname := writable_ok h
  have hclear : ∀ content, t.lookup? (parent p) ≠ some (.text content) := by
    intro content hparent
    simp [FileTree.writable, find, hname.1, hname.2, hnone, hparent] at h
  refine ⟨hname, by simp [hnone], ?_, hclear⟩
  simp only [FileTree.writable, find_missing hname hnone hclear] at h
  split at h
  · assumption
  · cases h

/-- The directories are the same. -/
def SameDirectories (t t' : FileTree) : Prop :=
  ∀ p, t'.lookup? p = some .directory ↔ t.lookup? p = some .directory

theorem SameDirectories.refl (t : FileTree) : t.SameDirectories t := fun _ => Iff.rfl

theorem SameDirectories.trans {t'' : FileTree} (h : t.SameDirectories t')
    (h' : t'.SameDirectories t'') : t.SameDirectories t'' := fun p => (h' p).trans (h p)

theorem put_directories (h : t.lookup? p ≠ some .directory) (content : String) :
    t.SameDirectories (t.put p (.text content)) := by
  intro q
  by_cases hq : q = p
  · subst hq
    simp [h]
  · rw [lookup?_put_other t _ hq]

theorem erase_directories (h : t.lookup? p ≠ some .directory) : t.SameDirectories (t.erase p) := by
  intro q
  by_cases hq : q = p
  · subst hq
    simp [h]
  · rw [lookup?_erase_other t hq]

theorem writable_free (h : t.writable p = .ok ()) : t.lookup? p ≠ some .directory := by
  intro hdirectory
  have hname := writable_ok h
  simp [writable, find, hname.1, hname.2, hdirectory] at h

/-- The calls of a store make no directory and remove none. -/
theorem touch_directories (h : t.touch p = .ok t') : t.SameDirectories t' := by
  unfold touch at h
  cases hw : t.writable p with
  | error f =>
    rw [hw] at h
    cases h
  | ok u =>
    rw [hw] at h
    cases hp : t.lookup? p with
    | some e =>
      rw [hp] at h
      cases h
      exact .refl t
    | none =>
      rw [hp] at h
      cases h
      exact put_directories (writable_free hw) ""

theorem write_directories {content : String} (h : t.write p content = .ok t') :
    t.SameDirectories t' := by
  unfold write at h
  cases hw : t.writable p with
  | error f =>
    rw [hw] at h
    cases h
  | ok u =>
    rw [hw] at h
    cases h
    exact put_directories (writable_free hw) content

theorem rename_directories (h : t.rename p q = .ok t') : t.SameDirectories t' := by
  unfold rename at h
  cases hr : t.read p with
  | error f =>
    rw [hr] at h
    cases h
  | ok content =>
    rw [hr] at h
    cases hw : t.writable q with
    | error f =>
      rw [hw] at h
      cases h
    | ok u =>
      rw [hw] at h
      cases h
      have herased : t.SameDirectories (t.erase p) := erase_directories (by simp [(read_ok.mp hr).2])
      exact herased.trans (put_directories (fun hq => writable_free hw ((herased q).mp hq)) content)

/-- What allows a file is its directory. -/
theorem Allows.keep (h : t.Allows p) (hsame : t.SameDirectories t')
    (hparent : t'.lookup? (parent p) = t.lookup? (parent p)) : t'.Allows p where
  name := h.name
  free := fun hp => h.free ((hsame p).mp hp)
  held := by
    rw [hparent]
    exact h.held
  clear := by
    rw [hparent]
    exact h.clear

/-- What allows a file is its directory, or that it stands at the root. -/
theorem Allows.stay (h : t.Allows p) (hsame : t.SameDirectories t')
    (hroot : t'.lookup? "" = t.lookup? "") : t'.Allows p := by
  refine h.keep hsame ?_
  rcases h.held with hparent | hparent
  · rw [hparent, hroot]
  · rw [hparent, (hsame _).mpr hparent]

theorem touch_allowed (h : t.Allows p) :
    ∃ t', t.touch p = .ok t' ∧ t.SameDirectories t' := by
  unfold touch
  simp only [h.writable, bind, Except.bind]
  cases t.lookup? p with
  | some e => exact ⟨t, rfl, .refl t⟩
  | none => exact ⟨_, rfl, put_directories h.free ""⟩

theorem write_allowed (h : t.Allows p) (content : String) :
    t.write p content = .ok (t.put p (.text content)) := by
  unfold write
  rw [h.writable]
  rfl

theorem rename_allowed {content : String} (hname : Nameable p)
    (hsource : t.lookup? p = some (.text content)) (h : t.Allows q) :
    t.rename p q = .ok ((t.erase p).put q (.text content)) := by
  unfold rename
  rw [read_ok.mpr ⟨hname, hsource⟩, h.writable]
  rfl

theorem makeDirectory_ok (h : t.makeDirectory p = .ok t') : t' = t.put p .directory := by
  unfold makeDirectory at h
  split at h
  · cases h
  · cases hw : t.writable p with
    | error f =>
      rw [hw] at h
      cases h
    | ok u =>
      rw [hw] at h
      cases h
      rfl
  · cases h

theorem put_directory (p : String) {q : String} (h : t.lookup? q = some .directory) :
    (t.put p .directory).lookup? q = some .directory := by
  by_cases hq : q = p
  · rw [hq, lookup?_put_self]
  · rw [lookup?_put_other t _ hq, h]

/-- Making directories leaves every directory in place, and those on the way are there afterwards. -/
theorem makeDirectories_ok {path : String} (h : t.makeDirectories path = .ok t') :
    (∀ p ∈ ancestors path, t'.lookup? p = some .directory) ∧
      ∀ p, t.lookup? p = some .directory → t'.lookup? p = some .directory := by
  unfold makeDirectories at h
  generalize ancestors path = parts at h ⊢
  induction parts generalizing t with
  | nil =>
    cases h
    exact ⟨fun p hp => absurd hp List.not_mem_nil, fun p hp => hp⟩
  | cons a rest ih =>
    rw [List.foldlM_cons] at h
    cases ha : t.lookup? a with
    | none =>
      rw [ha] at h
      dsimp only at h
      cases hm : t.makeDirectory a with
      | error f =>
        rw [hm] at h
        cases h
      | ok u =>
        rw [hm] at h
        obtain ⟨hrest, hkept⟩ := ih h
        obtain rfl := makeDirectory_ok hm
        refine ⟨fun p hp => ?_, fun p hp => hkept p (put_directory a hp)⟩
        rcases List.mem_cons.mp hp with rfl | hp
        · exact hkept p (lookup?_put_self t p _)
        · exact hrest p hp
    | some e =>
      rw [ha] at h
      cases e with
      | text content => cases h
      | directory =>
        obtain ⟨hrest, hkept⟩ := ih h
        refine ⟨fun p hp => ?_, hkept⟩
        rcases List.mem_cons.mp hp with rfl | hp
        · exact hkept p ha
        · exact hrest p hp

/-- Where all directories are there, none is made. -/
theorem makeDirectories_again {path : String}
    (h : ∀ p ∈ ancestors path, t.lookup? p = some .directory) : t.makeDirectories path = .ok t := by
  unfold makeDirectories
  generalize ancestors path = parts at h ⊢
  induction parts with
  | nil => rfl
  | cons a rest ih =>
    rw [List.foldlM_cons, h a (by simp)]
    exact ih fun p hp => h p (by simp [hp])

end FileTree

namespace DirectoryLeases

open FileTree

/-- The extensions of the files of a key. -/
def extensions : List String := [".lock", ".json", ".json.tmp"]

/-- The directory has room for the files of a key. -/
def Houses (t : FileTree) (d key : String) : Prop := ∀ e ∈ extensions, t.Allows (path d key e)

variable {t t' : FileTree} {d key other : String} {k : KeyState} {now : Instant} {op : LeaseOp}

theorem run_root (t : FileTree) (d : String) (now : Instant) (key : String)
    (op : LeaseOp) : (run t d now key op).2.lookup? "" = t.lookup? "" := by
  have hne {e : String} (he : e.toList ≠ []) : "" ≠ path d key e := by
    intro heq
    have hnil := congrArg String.toList heq
    rw [path_toList, eq_comm, String.toList_empty, List.append_eq_nil_iff, List.append_eq_nil_iff] at hnil
    exact he hnil.2.2
  exact run_lookup now op (hne (by decide)) (hne (by decide)) (hne (by decide))

theorem store_directories (t : FileTree) (d key : String) (k : KeyState) :
    t.SameDirectories (store t d key k).2 := by
  unfold store
  dsimp only
  split
  · exact .refl t
  · rename_i t₁ hw
    split
    · exact write_directories hw
    · rename_i t₂ hr
      exact (write_directories hw).trans (rename_directories hr)

/-- No operation makes a directory or removes one. -/
theorem run_directories (t : FileTree) (d : String) (now : Instant) (key : String) (op : LeaseOp) :
    t.SameDirectories (run t d now key op).2 := by
  rcases run_cases t d now key op with ⟨e, hr⟩ | ⟨t₁, htouch, hrest⟩
  · rw [hr]
    exact .refl t
  · have htouched := touch_directories htouch
    rcases hrest with ⟨e, hr⟩ | ⟨k, a, -, -, ⟨-, hr⟩ | ⟨-, -, hr⟩⟩
    · rw [hr]
      exact htouched
    · rw [hr]
      exact htouched
    · rw [hr]
      exact htouched.trans (store_directories t₁ d key _)

/-- An operation that keeps the directories leaves room for the files of every key. -/
theorem Houses.run (h : Houses t d other)
    (hsame : t.SameDirectories (run t d now key op).2) : Houses (run t d now key op).2 d other :=
  fun e he => (h e he).stay hsame (run_root t d now key op)

/-- The state of a key can be read, and where there is none it is the empty one. -/
theorem Stored.load_allowed {p : String} (h : Stored t p k) (hk : k.Storable) (ha : t.Allows p) :
    DirectoryLeases.load t p = .ok k := by
  rcases h with h | ⟨hnone, rfl⟩
  · simp only [DirectoryLeases.load, h, parse_text hk]
  · simp only [DirectoryLeases.load, FileTree.read, find_missing ha.name hnone ha.clear]

/-- A state is put in place if there is room for it. -/
theorem store_allowed (h : Houses t d key) (k : KeyState) :
    (store t d key k).1 = .ok () ∧ t.SameDirectories (store t d key k).2 := by
  have htmp := h ".json.tmp" (by simp [extensions])
  have hwritten := put_directories htmp.free k.toJson.text
  have hshape := extension_shape (show ".json.tmp" ∈ extensions by simp [extensions])
  have hstate := (h ".json" (by simp [extensions])).keep hwritten (lookup?_put_other t _ fun heq =>
    path_ne_parent hshape.1 (extension_shape (by simp)).2 heq.symm)
  have hrename := rename_allowed htmp.name (lookup?_put_self t _ _) hstate
  refine ⟨?_, store_directories t d key k⟩
  unfold store
  simp only [write_allowed htmp, hrename]

/-- With room for its files, an operation on a key answers what it computes, and the file then holds
the state that is put back, or the old one. -/
theorem run_filed (h : Houses t d key) (hstored : Stored t (path d key ".json") k) (hk : k.Storable)
    {a : op.Answer} (ha : (k.run key now op).1 = .ok a) :
    (run t d now key op).1 = .ok a ∧
      Stored (run t d now key op).2 (path d key ".json") (k.filing key now op a) ∧
      t.SameDirectories (run t d now key op).2 := by
  obtain ⟨hlock, htmp⟩ := path_ne d key key
  obtain ⟨t₁, htouch, hsame⟩ := touch_allowed (h ".lock" (by simp [extensions]))
  have hstored₁ := hstored.of_lookup (touch_other htouch hlock)
  have h₁ : Houses t₁ d key := fun e he => (h e he).keep hsame (touch_other htouch fun heq =>
    path_ne_parent (extension_shape (show ".lock" ∈ extensions by simp [extensions])).1
      (extension_shape he).2 heq.symm)
  have hload := hstored₁.load_allowed hk (h₁ ".json" (by simp [extensions]))
  obtain ⟨hput, hsame'⟩ := store_allowed h₁ (k.run key now op).2
  have hplace := store_state t₁ d key (k.run key now op).2
  unfold run KeyState.filing
  simp only [htouch, hload]
  generalize k.run key now op = ran at ha hput hsame' hplace
  obtain ⟨answer, k'⟩ := ran
  cases ha
  dsimp only at hput hsame' hplace ⊢
  split
  · generalize store t₁ d key k' = stored at hput hsame' hplace
    obtain ⟨answer', t₂⟩ := stored
    cases hput
    refine ⟨rfl, ?_, hsame.trans hsame'⟩
    rcases hplace with ⟨-, hread⟩ | ⟨⟨e, he⟩, -⟩
    · exact Or.inl hread
    · cases he
  · exact ⟨rfl, hstored₁, hsame⟩

end DirectoryLeases

/-- What happens to a directory of leases: a store is opened there, or one that is open serves a
request. -/
inductive LeaseEvent where
  | opens
  | serves (r : LeaseRequest)

/-- The requests that are served. -/
def LeaseEvent.requests (events : List LeaseEvent) : List LeaseRequest :=
  events.filterMap fun
    | .opens => none
    | .serves r => some r

/-- Carries out requests one after another. -/
def MemoryLeases.serve : MemoryLeases → List LeaseRequest → List LeaseReply
  | _, [] => []
  | m, r :: rs =>
    let done := m.run r.time r.key r.op
    ⟨r, done.1⟩ :: done.2.serve rs

namespace DirectoryLeases

open FileTree

/-- Opens stores on a directory and has them serve requests. A store that cannot be opened ends it. -/
def play (d : String) : FileTree → List LeaseEvent → Except Fault (List LeaseReply)
  | _, [] => .ok []
  | t, .opens :: events =>
    match t.makeDirectories d with
    | .error f => .error f
    | .ok t => play d t events
  | t, .serves r :: events =>
    let done := run t d r.time r.key r.op
    (play d done.2 events).map (⟨r, done.1⟩ :: ·)

/-- The file of a key mirrors what memory holds of it, with room for so many more operations. -/
structure Mirrors (d : String) (t : FileTree) (m : MemoryLeases) (now : Instant) (n : Nat)
    (key : String) : Prop where
  housed : Houses t d key
  filed : ∃ k, Stored t (path d key ".json") k ∧ k.Storable ∧ k.Room n ∧
    KeyState.Matches now (m.state key) k

variable {d key other : String} {t : FileTree} {m : MemoryLeases} {now later : Instant} {n : Nat}
  {op : LeaseOp}

/-- An operation is answered in both alike, and the file mirrors memory again. -/
theorem Mirrors.served (h : Mirrors d t m now (n + 1) key) (hnow : now ≤ later)
    (hrange : op.inRange later) :
    (∃ a, (m.run later key op).1 = .ok a ∧ (run t d later key op).1 = .ok a) ∧
      Mirrors d (run t d later key op).2 (m.run later key op).2 later n key ∧
      t.SameDirectories (run t d later key op).2 := by
  obtain ⟨k, hstored, hk, hroom, hmatch⟩ := h.filed
  obtain ⟨a, ha, hfiled, hmatch'⟩ := (hmatch.later hnow).run hrange key
  obtain ⟨hanswer, hstored', hsame⟩ := run_filed h.housed hstored hk hfiled
  refine ⟨⟨a, ha, hanswer⟩, ⟨h.housed.run hsame, _, hstored', ?_, ?_, ?_⟩, hsame⟩
  · unfold KeyState.filing
    split
    · exact (hk.run hroom hrange key).1
    · exact hk
  · unfold KeyState.filing
    split
    · exact (hk.run hroom hrange key).2
    · exact hroom.less
  · rw [m.run_state]
    exact hmatch'

/-- An operation on a key leaves the mirror of a key with another name. -/
theorem Mirrors.others (h : Mirrors d t m now (n + 1) other) (hnow : now ≤ later)
    (hname : fileStem key ≠ fileStem other) (hsame : t.SameDirectories (run t d later key op).2) :
    Mirrors d (run t d later key op).2 (m.run later key op).2 later n other := by
  obtain ⟨k, hstored, hk, hroom, hmatch⟩ := h.filed
  have hkey : other ≠ key := fun heq => hname (by rw [heq])
  refine ⟨h.housed.run hsame, k, ?_, hk, hroom.less, ?_⟩
  · exact hstored.of_lookup (run_seen hname (seen_path (by simp)) op)
  · rw [m.run_state_other later op hkey]
    exact hmatch.later hnow

/-- Whatever is served after that is answered in both alike. -/
theorem play_mirrors {events : List LeaseEvent}
    (hopen : ∀ p ∈ ancestors d, t.lookup? p = some .directory)
    (h : ∀ r ∈ LeaseEvent.requests events,
      Mirrors d t m now (LeaseEvent.requests events).length r.key)
    (hnames : ∀ r ∈ LeaseEvent.requests events, ∀ r' ∈ LeaseEvent.requests events,
      fileStem r.key = fileStem r'.key → r.key = r'.key)
    (hnow : ∀ r ∈ LeaseEvent.requests events, now ≤ r.time)
    (hclock : (LeaseEvent.requests events).Pairwise fun r r' => r.time ≤ r'.time)
    (hrange : ∀ r ∈ LeaseEvent.requests events, r.op.inRange r.time) :
    play d t events = .ok (m.serve (LeaseEvent.requests events)) ∧
      ∀ reply ∈ m.serve (LeaseEvent.requests events), ∃ a, reply.answer = .ok a := by
  induction events generalizing t m now with
  | nil => exact ⟨rfl, fun reply hreply => by cases hreply⟩
  | cons event events ih =>
    cases event with
    | opens =>
      simp only [play, makeDirectories_again hopen]
      exact ih hopen h hnames hnow hclock hrange
    | serves r =>
      have hrequests : LeaseEvent.requests (.serves r :: events) = r :: LeaseEvent.requests events :=
        rfl
      rw [hrequests] at h hnames hnow hclock hrange ⊢
      rw [List.length_cons] at h
      obtain ⟨hbefore, hclock'⟩ := List.pairwise_cons.mp hclock
      have hr := hnow r (by simp)
      obtain ⟨⟨a, ha, hfiled⟩, hown, hsame⟩ := (h r (by simp)).served hr (hrange r (by simp))
      have hkept : ∀ r' ∈ LeaseEvent.requests events,
          Mirrors d (run t d r.time r.key r.op).2 (m.run r.time r.key r.op).2 r.time
            (LeaseEvent.requests events).length r'.key := by
        intro r' hr'
        by_cases hkey : r.key = r'.key
        · rw [← hkey]
          exact hown
        · refine (h r' (by simp [hr'])).others hr (fun hname => hkey ?_) hsame
          exact hnames r (by simp) r' (by simp [hr']) hname
      obtain ⟨hplay, hanswers⟩ := ih (fun p hp => (hsame p).mpr (hopen p hp)) hkept
        (fun r₁ h₁ r₂ h₂ => hnames r₁ (by simp [h₁]) r₂ (by simp [h₂])) hbefore hclock'
        fun r' hr' => hrange r' (by simp [hr'])
      simp only [play, MemoryLeases.serve, hplay]
      rw [ha, hfiled]
      refine ⟨rfl, fun reply hreply => ?_⟩
      rcases List.mem_cons.mp hreply with rfl | hreply
      · exact ⟨a, rfl⟩
      · exact hanswers reply hreply

/-- A lease store in a directory is as good as one in memory. Let stores be opened on a directory as
often as one likes and be asked anything about keys with different file names, for which there is room
and nothing on record yet, at times that never go back. Then every request is answered, and as a new
store in memory answers it at the same times, as long as the expiries are on the time line and the
counters have room. -/
theorem refines_memory (d : String) (files t : FileTree) (events : List LeaseEvent)
    (hopen : files.makeDirectories d = .ok t)
    (hfiles : ∀ r ∈ LeaseEvent.requests events, ∀ e ∈ extensions,
      t.lookup? (path d r.key e) = none ∧ t.writable (path d r.key e) = .ok ())
    (hnames : ∀ r ∈ LeaseEvent.requests events, ∀ r' ∈ LeaseEvent.requests events,
      fileStem r.key = fileStem r'.key → r.key = r'.key)
    (hclock : (LeaseEvent.requests events).Pairwise fun r r' => r.time ≤ r'.time)
    (hrange : ∀ r ∈ LeaseEvent.requests events, r.op.inRange r.time)
    (hroom : (LeaseEvent.requests events).length < Word.size64) :
    play d t events = .ok (MemoryLeases.serve {} (LeaseEvent.requests events)) ∧
      ∀ reply ∈ MemoryLeases.serve {} (LeaseEvent.requests events), ∃ a, reply.answer = .ok a := by
  have hmirrors (now : Instant) : ∀ r ∈ LeaseEvent.requests events,
      Mirrors d t {} now (LeaseEvent.requests events).length r.key := by
    intro r hr
    refine ⟨fun e he => ?_, {}, ?_, KeyState.storable_empty, ?_, Or.inl rfl⟩
    · obtain ⟨hnone, hwritable⟩ := hfiles r hr e he
      exact .of_writable hnone hwritable
    · exact Or.inr ⟨(hfiles r hr ".json" (by simp [extensions])).1, rfl⟩
    · have hzero : 0 + (LeaseEvent.requests events).length < Word.size64 := by omega
      exact ⟨hzero, hzero, hzero⟩
  have hstart : ∃ now, ∀ r ∈ LeaseEvent.requests events, now ≤ r.time := by
    cases hrequests : LeaseEvent.requests events with
    | nil => exact ⟨.first, fun r hr => absurd hr List.not_mem_nil⟩
    | cons first rest =>
      rw [hrequests] at hclock
      refine ⟨first.time, fun r hr => ?_⟩
      rcases List.mem_cons.mp hr with rfl | hr
      · exact Int.le_refl _
      · exact (List.pairwise_cons.mp hclock).1 r hr
  obtain ⟨now, hnow⟩ := hstart
  exact play_mirrors (makeDirectories_ok hopen).1 (hmirrors now) hnames hnow hclock hrange

/-- A holder deletes its lease after the expiry: the file keeps the lease and memory does not, and
the next holder is granted the next fence by both. -/
theorem refines_memory_expired :
    let requests : List LeaseRequest := [
      ⟨⟨0⟩, "a", .grant none "x" 0 ⟨1000⟩⟩, ⟨⟨0⟩, "b/c", .enqueue "y" ⟨5000⟩⟩,
      ⟨⟨2000⟩, "a", .delete ⟨1⟩⟩, ⟨⟨3000⟩, "a", .grant none "z" 0 ⟨1000⟩⟩]
    let events := .opens :: requests.map .serves ++ [.opens]
    play "leases" ⟨[("leases", .directory)]⟩ events = .ok (MemoryLeases.serve {} requests) ∧
      (load (serve "leases" ⟨[("leases", .directory)]⟩ (requests.take 3)).2 "leases/a.json").toOption =
        some ⟨some ⟨"a", "x", ⟨1⟩, ⟨1000⟩, 0⟩, ⟨1⟩, [], 0⟩ := by
  intro requests events
  have hroom : ∀ r ∈ requests, ∀ e ∈ extensions,
      (⟨[("leases", .directory)]⟩ : FileTree).lookup? (path "leases" r.key e) = none ∧
        (FileTree.writable ⟨[("leases", .directory)]⟩ (path "leases" r.key e)).isOk := by
    decide +kernel
  have hfiles : ∀ r ∈ requests, ∀ e ∈ extensions,
      (⟨[("leases", .directory)]⟩ : FileTree).lookup? (path "leases" r.key e) = none ∧
        FileTree.writable ⟨[("leases", .directory)]⟩ (path "leases" r.key e) = .ok () := by
    intro r hr e he
    obtain ⟨hnone, hok⟩ := hroom r hr e he
    refine ⟨hnone, ?_⟩
    cases hw : FileTree.writable ⟨[("leases", .directory)]⟩ (path "leases" r.key e) with
    | ok u => rfl
    | error f =>
      rw [hw] at hok
      cases hok
  obtain ⟨hplay, -⟩ := refines_memory "leases" {} ⟨[("leases", .directory)]⟩ events
    rfl hfiles (by decide +kernel) (by decide +kernel)
    (by decide +kernel) (by decide +kernel)
  exact ⟨hplay, by decide +kernel⟩

end DirectoryLeases

end FencedSessions
