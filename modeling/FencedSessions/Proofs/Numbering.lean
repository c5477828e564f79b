import FencedSessions.Proofs.Refinement

/-! The fences of a key are numbers in the order of its grants, none is used twice, and what is on record
bears the last one. Nothing of it depends on the clock, nor on where the state is kept. -/

namespace FencedSessions

namespace LeaseReply

/-- The fence of a lease that was granted. -/
def granted? : LeaseReply → Option Fence
  | ⟨⟨_, _, .grant ..⟩, .ok (some l)⟩ => some l.fence
  | _ => none

/-- The fences that a reply vouches for: those of the lease it shows, extends or deletes. -/
def fences : LeaseReply → List Fence
  | ⟨⟨_, _, .grant ..⟩, .ok (some l)⟩ => [l.fence]
  | ⟨⟨_, _, .extend fence _⟩, .ok (some l)⟩ => [fence, l.fence]
  | ⟨⟨_, _, .delete fence⟩, .ok true⟩ => [fence]
  | ⟨⟨_, _, .get⟩, .ok (some l)⟩ => [l.fence]
  | _ => []

/-- The fences that were granted on a key, in the order of the grants. -/
def grantsOn (key : String) (replies : List LeaseReply) : List Fence :=
  (replies.filter (·.request.key = key)).filterMap granted?

theorem grantsOn_concat_self (replies : List LeaseReply) (r : LeaseReply) :
    grantsOn r.request.key (replies ++ [r]) = grantsOn r.request.key replies ++ r.granted?.toList := by
  unfold grantsOn
  cases hr : r.granted? <;> simp [List.filter_append, hr]

theorem grantsOn_concat_other {key : String} (replies : List LeaseReply) {r : LeaseReply}
    (h : r.request.key ≠ key) : grantsOn key (replies ++ [r]) = grantsOn key replies := by
  simp [grantsOn, List.filter_append, h]

theorem granted?_mem {r : LeaseReply} {f : Fence} (h : r.granted? = some f) : f ∈ r.fences := by
  unfold granted? at h
  split at h
  · cases h
    exact List.mem_singleton_self _
  · cases h

/-- The grants on every key are numbered from one, and no reply vouches for a fence but the last that
was granted on its key until then. -/
structure Numbered (replies : List LeaseReply) : Prop where
  grants : ∀ key, (grantsOn key replies).map (·.value) = List.range' 1 (grantsOn key replies).length
  latest : ∀ before reply after, replies = before ++ reply :: after → ∀ f ∈ reply.fences,
    f.value = (grantsOn reply.request.key (before ++ [reply])).length

theorem numbered_nil : Numbered [] where
  grants := fun _ => rfl
  latest := fun before reply after h => by simp at h

theorem Numbered.concat {replies : List LeaseReply} {r : LeaseReply} (h : Numbered replies)
    (hr : ∀ f ∈ r.fences, f.value = (grantsOn r.request.key (replies ++ [r])).length) :
    Numbered (replies ++ [r]) where
  grants := by
    intro key
    by_cases hkey : r.request.key = key
    · subst hkey
      rw [grantsOn_concat_self] at hr ⊢
      cases hgranted : r.granted? with
      | none =>
        rw [Option.toList_none, List.append_nil]
        exact h.grants _
      | some f =>
        have hf := hr f (granted?_mem hgranted)
        rw [hgranted, Option.toList_some, List.length_append, List.length_singleton] at hf
        rw [Option.toList_some, List.map_append, h.grants, List.map_singleton, hf,
          List.length_append, List.length_singleton, List.range'_concat, Nat.one_mul, Nat.add_comm 1]
    · rw [grantsOn_concat_other replies hkey]
      exact h.grants key
  latest := by
    intro before reply after heq
    rcases List.eq_nil_or_concat after with rfl | ⟨after, last, rfl⟩
    · obtain ⟨rfl, hlast⟩ := List.append_inj' heq rfl
      cases hlast
      exact hr
    · rw [List.concat_eq_append, ← List.cons_append, ← List.append_assoc] at heq
      obtain ⟨hbefore, -⟩ := List.append_inj' heq rfl
      exact h.latest before reply after hbefore

end LeaseReply

namespace KeyState

open LeaseReply

variable {k : KeyState} {n : Nat} {key : String} {now : Instant} {op : LeaseOp}

/-- So many fences were issued, and a recorded lease bears the last of them. -/
structure Issued (k : KeyState) (n : Nat) : Prop where
  last : k.lastFence.value = n
  lease : ∀ l, k.lease = some l → l.fence.value = n

theorem issued_empty : ({} : KeyState).Issued 0 := ⟨rfl, fun l hl => by cases hl⟩

theorem Issued.grant (h : k.Issued n) {expected : Option Fence} {holder : String} {position : Nat} {ttl : Span}
    {a : Option Lease} (ha : (k.grant key now expected holder position ttl).1 = .ok a) :
    (k.grant key now expected holder position ttl).2.Issued (n + a.toList.length) ∧
      ∀ l, a = some l → l.fence.value = n + 1 := by
  simp only [KeyState.grant] at ha ⊢
  split at ha
  · rename_i hexpected
    cases ha
    rw [if_pos hexpected]
    exact ⟨h, fun l hl => by cases hl⟩
  · rename_i hexpected
    rw [if_neg hexpected]
    cases hexpiry : now.after? ttl with
    | none =>
      rw [hexpiry] at ha
      cases ha
    | some expiry =>
      rw [hexpiry] at ha
      cases ha
      have hnext : k.lastFence.next.value = n + 1 := congrArg (· + 1) h.last
      refine ⟨⟨hnext, fun l hl => ?_⟩, fun l hl => ?_⟩
      · cases hl
        exact hnext
      · cases hl
        exact hnext

theorem Issued.extend (h : k.Issued n) {fence : Fence} {ttl : Span} {a : Option Lease}
    (ha : (k.extend now fence ttl).1 = .ok a) :
    (k.extend now fence ttl).2.Issued n ∧ ∀ l, a = some l → fence.value = n ∧ l.fence.value = n := by
  simp only [KeyState.extend] at ha ⊢
  split at ha
  · rename_i l hl
    have hlease := h.lease l hl
    split at ha
    · rename_i hlive
      cases hexpiry : now.after? ttl with
      | none =>
        rw [hexpiry] at ha
        cases ha
      | some expiry =>
        rw [hexpiry] at ha
        cases ha
        simp only [if_pos hlive]
        refine ⟨⟨h.last, fun l' hl' => ?_⟩, fun l' hl' => ?_⟩
        · cases hl'
          exact hlease
        · cases hl'
          exact ⟨hlive.1 ▸ hlease, hlease⟩
    · rename_i hdead
      cases ha
      rw [if_neg hdead]
      exact ⟨h, fun l hl => by cases hl⟩
  · cases ha
    exact ⟨h, fun l hl => by cases hl⟩

theorem Issued.delete (h : k.Issued n) (now : Instant) (fence : Fence) :
    (k.delete now fence).2.Issued n ∧ ((k.delete now fence).1 = true → fence.value = n) := by
  unfold KeyState.delete
  split
  · rename_i l hl
    split
    · rename_i hfence
      exact ⟨⟨h.last, fun l' hl' => by cases hl'⟩, fun _ => hfence ▸ h.lease l hl⟩
    · exact ⟨h, fun hf => by cases hf⟩
  · exact ⟨h, fun hf => by cases hf⟩

/-- A grant issues the next fence, and what else is answered is about the last one. -/
theorem Issued.run (h : k.Issued n) {a : op.Answer} (ha : (k.run key now op).1 = .ok a) :
    let r : LeaseReply := ⟨⟨now, key, op⟩, .ok a⟩
    (k.run key now op).2.Issued (n + r.granted?.toList.length) ∧
      ∀ f ∈ r.fences, f.value = n + r.granted?.toList.length := by
  have hquiet (f : Fence) (hf : f ∈ ([] : List Fence)) : f.value = n := by cases hf
  cases op with
  | grant expected holder position ttl =>
    obtain ⟨hissued, hfence⟩ := h.grant ha
    cases a with
    | none => exact ⟨hissued, hquiet⟩
    | some l =>
      refine ⟨hissued, fun f hf => ?_⟩
      rw [List.mem_singleton.mp hf]
      exact hfence l rfl
  | extend fence ttl =>
    obtain ⟨hissued, hfences⟩ := h.extend ha
    cases a with
    | none => exact ⟨hissued, hquiet⟩
    | some l =>
      obtain ⟨hfence, hlease⟩ := hfences l rfl
      refine ⟨hissued, fun f hf => ?_⟩
      rcases List.mem_cons.mp hf with rfl | hf
      · exact hfence
      · rw [List.mem_singleton.mp hf]
        exact hlease
  | delete fence =>
    obtain ⟨hissued, hfence⟩ := h.delete now fence
    have hanswer : (k.delete now fence).1 = a := Except.ok.inj ha
    cases a with
    | false => exact ⟨hissued, hquiet⟩
    | true =>
      refine ⟨hissued, fun f hf => ?_⟩
      rw [List.mem_singleton.mp hf]
      exact hfence hanswer
  | get =>
    have hanswer : k.liveLease now = a := Except.ok.inj ha
    cases a with
    | none => exact ⟨h, hquiet⟩
    | some l =>
      refine ⟨h, fun f hf => ?_⟩
      rw [List.mem_singleton.mp hf]
      exact h.lease l (Option.filter_eq_some_iff.mp hanswer).1
  | enqueue holder deadline => exact ⟨⟨h.last, h.lease⟩, hquiet⟩
  | position ticket => exact ⟨⟨h.last, h.lease⟩, hquiet⟩
  | remove ticket => exact ⟨⟨h.last, h.lease⟩, hquiet⟩
  | queueLength => exact ⟨⟨h.last, h.lease⟩, hquiet⟩

end KeyState

namespace LeaseReply

variable {k : KeyState} {before : List LeaseReply} {r : LeaseRequest} {a : r.op.Answer}

/-- An answer by the state of its key goes on with the numbers, and so does the state. -/
theorem Numbered.answered (h : Numbered before) (hk : k.Issued (grantsOn r.key before).length)
    (ha : (k.run r.key r.time r.op).1 = .ok a) :
    Numbered (before ++ [⟨r, .ok a⟩]) ∧
      (k.run r.key r.time r.op).2.Issued (grantsOn r.key (before ++ [⟨r, .ok a⟩])).length := by
  obtain ⟨hissued, hfences⟩ := hk.run ha
  have hcount : (grantsOn r.key (before ++ [⟨r, .ok a⟩])).length =
      (grantsOn r.key before).length + (granted? ⟨r, .ok a⟩).toList.length :=
    (congrArg List.length (grantsOn_concat_self before ⟨r, .ok a⟩)).trans List.length_append
  rw [← hcount] at hissued hfences
  exact ⟨h.concat hfences, hissued⟩

/-- An answer after which the state is not put back has granted nothing. -/
theorem granted?_unwritten (h : r.op.writes a = false) : granted? ⟨r, .ok a⟩ = none := by
  obtain ⟨time, key, op⟩ := r
  cases op with
  | grant expected holder position ttl =>
    obtain rfl : a = none := by simpa [LeaseOp.writes] using h
    rfl
  | _ => rfl

/-- The same with what is put back. -/
theorem Numbered.filed (h : Numbered before) (hk : k.Issued (grantsOn r.key before).length)
    (ha : (k.run r.key r.time r.op).1 = .ok a) :
    Numbered (before ++ [⟨r, .ok a⟩]) ∧
      (k.filing r.key r.time r.op a).Issued (grantsOn r.key (before ++ [⟨r, .ok a⟩])).length := by
  obtain ⟨hnumbered, hrun⟩ := h.answered hk ha
  refine ⟨hnumbered, ?_⟩
  unfold KeyState.filing
  split
  · exact hrun
  · rename_i hwrites
    have hgranted := granted?_unwritten (r := r) (a := a) (by simpa using hwrites)
    have hsame := grantsOn_concat_self before ⟨r, .ok a⟩
    rw [hgranted, Option.toList_none, List.append_nil] at hsame
    rw [hsame]
    exact hk

end LeaseReply

open LeaseReply

namespace MemoryLeases

/-- What requests one after another leave. -/
def after (m : MemoryLeases) (rs : List LeaseRequest) : MemoryLeases :=
  rs.foldl (fun m r => (m.run r.time r.key r.op).2) m

/-- The replies of a store in memory are numbered, and so is what it has on record. -/
theorem serve_numbered {m : MemoryLeases} {before : List LeaseReply} {rs : List LeaseRequest}
    (h : Numbered before) (hm : ∀ key, (m.state key).Issued (grantsOn key before).length)
    (hrange : ∀ r ∈ rs, r.op.inRange r.time) :
    (∀ reply ∈ m.serve rs, ∃ a, reply.answer = .ok a) ∧ Numbered (before ++ m.serve rs) ∧
      ∀ key, ((m.after rs).state key).Issued (grantsOn key (before ++ m.serve rs)).length := by
  induction rs generalizing m before with
  | nil =>
    rw [show m.serve [] = [] from rfl, List.append_nil]
    exact ⟨List.forall_mem_nil _, h, hm⟩
  | cons r rs ih =>
    obtain ⟨a, ha⟩ := (m.state r.key).run_answers r.key (hrange r (by simp))
    have hanswer : (m.run r.time r.key r.op).1 = .ok a := ha
    obtain ⟨hnumbered, hissued⟩ := h.answered (hm r.key) ha
    have hkept (key : String) : ((m.run r.time r.key r.op).2.state key).Issued
        (grantsOn key (before ++ [⟨r, .ok a⟩])).length := by
      by_cases hkey : key = r.key
      · rw [hkey, m.run_state]
        exact hissued
      · rw [m.run_state_other r.time r.op hkey, grantsOn_concat_other before (Ne.symm hkey)]
        exact hm key
    obtain ⟨hanswers, hrest⟩ := ih hnumbered hkept fun r' hr' => hrange r' (by simp [hr'])
    rw [List.append_assoc, List.singleton_append] at hrest
    simp only [serve, hanswer]
    refine ⟨fun reply hreply => ?_, hrest⟩
    rcases List.mem_cons.mp hreply with rfl | hreply
    · exact ⟨a, rfl⟩
    · exact hanswers reply hreply

end MemoryLeases

namespace DirectoryLeases

open FileTree

/-- The files that stores leave. -/
def left (d : String) : FileTree → List LeaseEvent → Except Fault FileTree
  | t, [] => .ok t
  | t, .opens :: events =>
    match t.makeDirectories d with
    | .error f => .error f
    | .ok t => left d t events
  | t, .serves r :: events => left d (run t d r.time r.key r.op).2 events

/-- The file of a key can be put back for so many more operations, and so many fences were issued. -/
structure Keeps (d : String) (t : FileTree) (n issued : Nat) (key : String) : Prop where
  housed : Houses t d key
  filed : ∃ k, Stored t (path d key ".json") k ∧ k.Storable ∧ k.Room n ∧ k.Issued issued

variable {d other : String} {t : FileTree} {before : List LeaseReply} {r : LeaseRequest} {n : Nat}

/-- An operation within range is answered, and goes on with the numbers of its key. -/
theorem Keeps.served (h : Keeps d t (n + 1) (grantsOn r.key before).length r.key)
    (hbefore : Numbered before) (hrange : r.op.inRange r.time) :
    ∃ a, (run t d r.time r.key r.op).1 = .ok a ∧ Numbered (before ++ [⟨r, .ok a⟩]) ∧
      Keeps d (run t d r.time r.key r.op).2 n (grantsOn r.key (before ++ [⟨r, .ok a⟩])).length r.key ∧
      t.SameDirectories (run t d r.time r.key r.op).2 := by
  obtain ⟨k, hstored, hk, hroom, hissued⟩ := h.filed
  obtain ⟨a, ha⟩ := k.run_answers r.key hrange
  obtain ⟨hnumbered, hfiled⟩ := hbefore.filed hissued ha
  obtain ⟨hanswer, hstored', hsame⟩ := run_filed h.housed hstored hk ha
  refine ⟨a, hanswer, hnumbered, ⟨h.housed.run hsame, _, hstored', ?_, ?_, hfiled⟩, hsame⟩
  · unfold KeyState.filing
    split
    · exact (hk.run hroom hrange r.key).1
    · exact hk
  · unfold KeyState.filing
    split
    · exact (hk.run hroom hrange r.key).2
    · exact hroom.less

/-- An operation on a key has no part in the numbers of a key with another name. -/
theorem Keeps.others (h : Keeps d t (n + 1) (grantsOn other before).length other)
    (hname : fileStem r.key ≠ fileStem other)
    (hsame : t.SameDirectories (run t d r.time r.key r.op).2) (a : Except Stop r.op.Answer) :
    Keeps d (run t d r.time r.key r.op).2 n (grantsOn other (before ++ [⟨r, a⟩])).length other := by
  obtain ⟨k, hstored, hk, hroom, hissued⟩ := h.filed
  have hkey : r.key ≠ other := fun heq => hname (by rw [heq])
  rw [grantsOn_concat_other before hkey]
  exact ⟨h.housed.run hsame, k, hstored.of_lookup (run_seen hname (seen_path (by simp)) r.op), hk,
    hroom.less, hissued⟩

/-- The replies of stores in a directory are numbered, and so is what the files have on record. -/
theorem play_numbered {keys : List String} {events : List LeaseEvent} (hbefore : Numbered before)
    (hopen : ∀ p ∈ ancestors d, t.lookup? p = some .directory)
    (hkeys : ∀ r ∈ LeaseEvent.requests events, r.key ∈ keys)
    (hnames : ∀ a ∈ keys, ∀ b ∈ keys, fileStem a = fileStem b → a = b)
    (h : ∀ key ∈ keys, Keeps d t (LeaseEvent.requests events).length (grantsOn key before).length key)
    (hrange : ∀ r ∈ LeaseEvent.requests events, r.op.inRange r.time) :
    ∃ replies t', play d t events = .ok replies ∧ left d t events = .ok t' ∧
      replies.map (·.request) = LeaseEvent.requests events ∧
      (∀ reply ∈ replies, ∃ a, reply.answer = .ok a) ∧ Numbered (before ++ replies) ∧
      ∀ key ∈ keys, Keeps d t' 0 (grantsOn key (before ++ replies)).length key := by
  induction events generalizing t before with
  | nil =>
    refine ⟨[], t, rfl, rfl, rfl, List.forall_mem_nil _, ?_, ?_⟩
    · rwa [List.append_nil]
    · rwa [List.append_nil]
  | cons event events ih =>
    cases event with
    | opens =>
      simp only [play, left, makeDirectories_again hopen]
      exact ih hbefore hopen hkeys h hrange
    | serves r =>
      have hrequests : LeaseEvent.requests (.serves r :: events) = r :: LeaseEvent.requests events :=
        rfl
      rw [hrequests] at hkeys h hrange
      rw [List.length_cons] at h
      have hr := hkeys r (by simp)
      obtain ⟨a, ha, hnumbered, hown, hsame⟩ := (h r.key hr).served hbefore (hrange r (by simp))
      have hkept : ∀ key ∈ keys, Keeps d (run t d r.time r.key r.op).2
          (LeaseEvent.requests events).length (grantsOn key (before ++ [⟨r, .ok a⟩])).length key := by
        intro key hkey
        by_cases heq : r.key = key
        · rw [← heq]
          exact hown
        · exact (h key hkey).others (fun hname => heq (hnames _ hr _ hkey hname)) hsame _
      obtain ⟨replies, t', hplay, hleft, hserved, hanswers, hnumbered', hkept'⟩ :=
        ih hnumbered (fun p hp => (hsame p).mpr (hopen p hp)) (fun r' hr' => hkeys r' (by simp [hr']))
          hkept fun r' hr' => hrange r' (by simp [hr'])
      rw [List.append_assoc, List.singleton_append] at hnumbered' hkept'
      refine ⟨⟨r, .ok a⟩ :: replies, t', ?_, hleft, ?_, ?_, hnumbered', hkept'⟩
      · simp only [play, hplay, ha]
        rfl
      · rw [List.map_cons, hserved, hrequests]
      · intro reply hreply
        rcases List.mem_cons.mp hreply with rfl | hreply
        · exact ⟨a, rfl⟩
        · exact hanswers reply hreply

/-- Fences are never used again, whatever happens to the leases and whatever the clock shows. A new
store in memory numbers the grants on every key from one, vouches for the last fence only, and a lease
on record bears it; and so do stores that are opened on a directory as often as one likes, for keys with
different file names for which there is room and nothing on record yet. -/
theorem fences_numbered (d : String) (files t : FileTree) (events : List LeaseEvent)
    (hrange : ∀ r ∈ LeaseEvent.requests events, r.op.inRange r.time) :
    ((∀ reply ∈ MemoryLeases.serve {} (LeaseEvent.requests events), ∃ a, reply.answer = .ok a) ∧
      Numbered (MemoryLeases.serve {} (LeaseEvent.requests events)) ∧
      ∀ key, ((MemoryLeases.after {} (LeaseEvent.requests events)).state key).Issued
        (grantsOn key (MemoryLeases.serve {} (LeaseEvent.requests events))).length) ∧
    (files.makeDirectories d = .ok t →
      (∀ r ∈ LeaseEvent.requests events, ∀ e ∈ extensions,
        t.lookup? (path d r.key e) = none ∧ t.writable (path d r.key e) = .ok ()) →
      (∀ r ∈ LeaseEvent.requests events, ∀ r' ∈ LeaseEvent.requests events,
        fileStem r.key = fileStem r'.key → r.key = r'.key) →
      (LeaseEvent.requests events).length < Word.size64 →
      ∃ replies t', play d t events = .ok replies ∧ left d t events = .ok t' ∧
        replies.map (·.request) = LeaseEvent.requests events ∧
        (∀ reply ∈ replies, ∃ a, reply.answer = .ok a) ∧ Numbered replies ∧
        ∀ r ∈ LeaseEvent.requests events, ∃ k, load t' (path d r.key ".json") = .ok k ∧
          k.Issued (grantsOn r.key replies).length) := by
  constructor
  · have hempty (key : String) : ((({} : MemoryLeases).state key)).Issued (grantsOn key []).length :=
      KeyState.issued_empty
    exact MemoryLeases.serve_numbered numbered_nil hempty hrange
  · intro hopen hfiles hnames hroom
    have hkeeps : ∀ key ∈ (LeaseEvent.requests events).map (·.key),
        Keeps d t (LeaseEvent.requests events).length (grantsOn key []).length key := by
      intro key hkey
      obtain ⟨r, hr, rfl⟩ := List.mem_map.mp hkey
      refine ⟨fun e he => ?_, {}, ?_, KeyState.storable_empty, ?_, KeyState.issued_empty⟩
      · obtain ⟨hnone, hwritable⟩ := hfiles r hr e he
        exact .of_writable hnone hwritable
      · exact Or.inr ⟨(hfiles r hr ".json" (by simp [extensions])).1, rfl⟩
      · have hzero : 0 + (LeaseEvent.requests events).length < Word.size64 := by omega
        exact ⟨hzero, hzero, hzero⟩
    have hapart : ∀ a ∈ (LeaseEvent.requests events).map (·.key),
        ∀ b ∈ (LeaseEvent.requests events).map (·.key), fileStem a = fileStem b → a = b := by
      intro a ha b hb
      obtain ⟨r, hr, rfl⟩ := List.mem_map.mp ha
      obtain ⟨r', hr', rfl⟩ := List.mem_map.mp hb
      exact hnames r hr r' hr'
    obtain ⟨replies, t', hplay, hleft, hserved, hanswers, hnumbered, hkept⟩ :=
      play_numbered numbered_nil (makeDirectories_ok hopen).1
        (fun r hr => List.mem_map_of_mem hr) hapart hkeeps hrange
    refine ⟨replies, t', hplay, hleft, hserved, hanswers, hnumbered, fun r hr => ?_⟩
    obtain ⟨hhoused, k, hstored, hk, -, hissued⟩ := hkept r.key (List.mem_map_of_mem hr)
    exact ⟨k, hstored.load_allowed hk (hhoused ".json" (by simp [extensions])), hissued⟩

/-- The holder deletes its lease after the expiry, which memory forgets then and the file does not. The
clock goes back, and the next holder is granted the next fence in memory and none in the directory. -/
theorem fences_numbered_clock_back :
    let requests : List LeaseRequest := [⟨⟨5000⟩, "a", .grant none "x" 0 ⟨1000⟩⟩,
      ⟨⟨9000⟩, "a", .delete ⟨1⟩⟩, ⟨⟨2000⟩, "a", .grant none "y" 0 ⟨1000⟩⟩]
    let events := requests.flatMap fun r => [.opens, .serves r]
    Numbered (MemoryLeases.serve {} requests) ∧
      grantsOn "a" (MemoryLeases.serve {} requests) = [⟨1⟩, ⟨2⟩] ∧
      ∃ replies, play "leases" ⟨[("leases", .directory)]⟩ events = .ok replies ∧ Numbered replies ∧
        (play "leases" ⟨[("leases", .directory)]⟩ events).toOption.map (grantsOn "a") = some [⟨1⟩] := by
  intro requests events
  have hroom : ∀ r ∈ requests, ∀ e ∈ extensions,
      (⟨[("leases", .directory)]⟩ : FileTree).lookup? (path "leases" r.key e) = none ∧
        (FileTree.writable ⟨[("leases", .directory)]⟩ (path "leases" r.key e)).isOk := by
    decide +kernel
  obtain ⟨⟨-, hmemory, -⟩, hdirectory⟩ := fences_numbered "leases" {} ⟨[("leases", .directory)]⟩ events
    (by decide +kernel)
  obtain ⟨replies, t', hplay, -, -, -, hnumbered, -⟩ := hdirectory rfl
    (fun r hr e he => ⟨(hroom r hr e he).1, writable_isOk (hroom r hr e he).2⟩) (by decide +kernel)
    (by decide +kernel)
  exact ⟨hmemory, by decide +kernel, replies, hplay, hnumbered, by decide +kernel⟩

end DirectoryLeases

end FencedSessions
