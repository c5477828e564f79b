import FencedSessions.Proofs.Finality

/-! Who has a lease. A store tells it in several ways: it shows the live lease, extends a lease for who
presents its fence, deletes it, and grants a new one in its place; they all agree, at every instant, and so
do a lock's check of a lease and its renewal. Who expects no lease is granted one if none is shown and the
new one can be put on record: in memory always, in a directory if the names of the key's files are accepted
there. -/

namespace FencedSessions

/-- Whether the live lease is one with this fence. -/
def Owns (ask : (op : LeaseOp) → Except Stop op.Answer) (f : Fence) : Prop :=
  ∃ l, ask .get = .ok (some l) ∧ l.fence = f

/-- A store that answers so about a key has one notion of owning a fence, as far as expiries are on the time
line. -/
structure OneOwner (ask : (op : LeaseOp) → Except Stop op.Answer) (now : Instant) (f : Fence) : Prop where
  extends_iff : ∀ ttl, (now.after? ttl).isSome →
    ((∃ l, ask (.extend f ttl) = .ok (some l)) ↔ Owns ask f)
  deletes_iff : ask (.delete f) = .ok true ↔ Owns ask f
  grants_iff : ∀ holder place ttl, (now.after? ttl).isSome →
    ((∃ l, ask (.grant (some f) holder place ttl) = .ok (some l)) ↔ Owns ask f)

/-- A store that answers so about a key grants a lease to who expects none just if it shows none. -/
def GrantsVacant (ask : (op : LeaseOp) → Except Stop op.Answer) (now : Instant) : Prop :=
  ∀ holder place ttl, (now.after? ttl).isSome →
    ((∃ l, ask (.grant none holder place ttl) = .ok (some l)) ↔ ask .get = .ok none)

section Answers

variable {ask ask' : (op : LeaseOp) → Except Stop op.Answer} {now : Instant} {f : Fence}

theorem OneOwner.congr (h : OneOwner ask now f) (heq : ∀ op a, ask op = .ok a ↔ ask' op = .ok a) :
    OneOwner ask' now f := by
  have howns : Owns ask f ↔ Owns ask' f := exists_congr fun l => and_congr_left' (heq .get _)
  constructor
  · intro ttl hrange
    rw [← howns, ← h.extends_iff ttl hrange]
    exact exists_congr fun l => (heq _ _).symm
  · rw [← howns, ← h.deletes_iff, heq]
  · intro holder place ttl hrange
    rw [← howns, ← h.grants_iff holder place ttl hrange]
    exact exists_congr fun l => (heq _ _).symm

theorem GrantsVacant.congr (h : GrantsVacant ask now) (heq : ∀ op a, ask op = .ok a ↔ ask' op = .ok a) :
    GrantsVacant ask' now := by
  intro holder place ttl hrange
  rw [← heq, ← h holder place ttl hrange]
  exact exists_congr fun l => (heq _ _).symm

/-- A store that never says who owns a key agrees with itself. -/
theorem OneOwner.of_nobody (hget : ∀ l, ask .get ≠ .ok (some l))
    (hextend : ∀ ttl l, ask (.extend f ttl) ≠ .ok (some l)) (hdelete : ask (.delete f) ≠ .ok true)
    (hgrant : ∀ holder place ttl l, ask (.grant (some f) holder place ttl) ≠ .ok (some l)) :
    OneOwner ask now f := by
  have hnobody : ¬Owns ask f := fun ⟨l, hl, _⟩ => hget l hl
  exact ⟨fun ttl _ => iff_of_false (fun ⟨l, hl⟩ => hextend ttl l hl) hnobody,
    iff_of_false hdelete hnobody,
    fun holder place ttl _ => iff_of_false (fun ⟨l, hl⟩ => hgrant holder place ttl l hl) hnobody⟩

end Answers

namespace KeyState

variable {k : KeyState} {key : String} {now : Instant} {f : Fence}

/-- The fence of the live lease, if there is one. -/
def owner? (k : KeyState) (now : Instant) : Option Fence := (k.liveLease now).map Lease.fence

theorem owner?_eq_some : k.owner? now = some f ↔
    ∃ l, k.lease = some l ∧ l.fence = f ∧ l.liveAt now := by
  unfold owner? liveLease
  simp only [Option.map_eq_some_iff, Option.filter_eq_some_iff]
  exact exists_congr fun l => ⟨fun h => ⟨h.1.1, h.2, h.1.2⟩, fun h => ⟨⟨h.1, h.2.2⟩, h.2.1⟩⟩

theorem owns_iff : Owns (fun op => (k.run key now op).1) f ↔ k.owner? now = some f := by
  rw [owner?, Option.map_eq_some_iff]
  exact exists_congr fun l => and_congr_left' ⟨Except.ok.inj, congrArg Except.ok⟩

theorem extend_iff {ttl : Span} (hrange : (now.after? ttl).isSome) :
    (∃ l, (k.extend now f ttl).1 = .ok (some l)) ↔ k.owner? now = some f := by
  obtain ⟨expiry, hexpiry⟩ := Option.isSome_iff_exists.mp hrange
  rw [owner?_eq_some]
  unfold extend
  cases hl : k.lease with
  | none => simp
  | some l => by_cases howns : l.fence = f ∧ l.liveAt now <;> simp [howns, hexpiry]

theorem delete_iff : (k.delete now f).1 = true ↔ k.owner? now = some f := by
  rw [owner?_eq_some]
  unfold delete
  cases hl : k.lease with
  | none => simp
  | some l => by_cases hfence : l.fence = f <;> simp [hfence]

theorem grant_iff {holder : String} {place : Nat} {ttl : Span} (hrange : (now.after? ttl).isSome)
    (expected : Option Fence) :
    (∃ l, (k.grant key now expected holder place ttl).1 = .ok (some l)) ↔ k.owner? now = expected := by
  obtain ⟨expiry, hexpiry⟩ := Option.isSome_iff_exists.mp hrange
  unfold grant owner?
  by_cases hexpected : (k.liveLease now).map Lease.fence = expected <;> simp [hexpected, hexpiry]

/-- All that a state answers about an owner is told by its live lease. -/
theorem one_owner (k : KeyState) (key : String) (now : Instant) (f : Fence) :
    OneOwner (fun op => (k.run key now op).1) now f where
  extends_iff _ hrange := (extend_iff hrange).trans owns_iff.symm
  deletes_iff := ⟨fun h => owns_iff.mpr (delete_iff.mp (Except.ok.inj h)),
    fun h => congrArg Except.ok (delete_iff.mpr (owns_iff.mp h))⟩
  grants_iff _ _ _ hrange := (grant_iff hrange (some f)).trans owns_iff.symm

theorem grants_vacant (k : KeyState) (key : String) (now : Instant) :
    GrantsVacant (fun op => (k.run key now op).1) now := by
  intro holder place ttl hrange
  refine (grant_iff hrange none).trans ?_
  rw [owner?, Option.map_eq_none_iff]
  exact ⟨congrArg Except.ok, Except.ok.inj⟩

/-- A state that was never used knows no owner. -/
theorem one_owner_empty {ask : (op : LeaseOp) → Except Stop op.Answer}
    (h : ∀ op a, ask op = .ok a → (({} : KeyState).run key now op).1 = .ok a) : OneOwner ask now f := by
  refine .of_nobody (fun l hl => ?_) (fun ttl l hl => ?_) (fun hdeleted => ?_)
    fun holder place ttl l hl => ?_
  · cases h _ _ hl
  · cases h _ _ hl
  · cases h _ _ hdeleted
  · cases h _ _ hl

end KeyState

namespace Site

variable {s : Site} {n : Nat} {key : String} {op : LeaseOp} {f : Fence}

/-- A call that is let through and not made to fail is answered as its operation is. -/
theorem guarded_iff (hpass : ((s.breaker n).pass (s.settings n).breaker s.now).1 = .ok ())
    (hspares : s.spares op) (a : op.Answer) :
    (s.guarded n key op).1 = .ok a ↔ (s.leaseRun key op).1 = .ok a := by
  unfold guarded
  generalize (s.breaker n).pass (s.settings n).breaker s.now = passed at hpass
  obtain ⟨passes, b⟩ := passed
  cases hpass
  -- the breaker has no part in what the store answers
  have hspares' : (s.setBreaker n b).spares op := hspares
  have hlease : ((s.setBreaker n b).lease key op).1 = (s.leaseRun key op).1 :=
    (lease_of_spares hspares').trans (leaseRun_calm key op (calm_setBreaker s n b) rfl).1
  change (((s.setBreaker n b).lease key op).2.observed n ((s.setBreaker n b).lease key op).1).1 = .ok a ↔ _
  rw [hlease]
  cases (s.leaseRun key op).1 with
  | ok answer => rw [observed_ok]
  | error e =>
    obtain ⟨e', he⟩ := observed_error (α := op.Answer) ((s.setBreaker n b).lease key op).2 n e
    rw [he]
    exact iff_of_false nofun nofun

/-- Whether a node, when it lets calls through, would renew a lease just if a check finds it. -/
def Renews (s : Site) (n : Nat) (key : String) (f : Fence) : Prop :=
  ((s.breaker n).pass (s.settings n).breaker s.now).1 = .ok () → ∀ ttl, (s.now.after? ttl).isSome →
    s.spares .get → s.spares (.extend f ttl) →
      ((∃ l, (s.check n key f).1 = .ok l) ↔ ∃ l, (s.renew n key f ttl).1 = .ok l)

theorem check_iff : (∃ l, (s.check n key f).1 = .ok l) ↔ Owns (fun op => (s.guarded n key op).1) f := by
  change _ ↔ ∃ l, (s.guarded n key .get).1 = .ok (some l) ∧ l.fence = f
  unfold check
  generalize s.guarded n key .get = called
  obtain ⟨e | _ | l, t⟩ := called
  · simp
  · simp
  · by_cases hf : l.fence = f <;> simp [hf]

theorem renew_iff {ttl : Span} : (∃ l, (s.renew n key f ttl).1 = .ok l) ↔
    ∃ l, (s.guarded n key (.extend f ttl)).1 = .ok (some l) := by
  unfold renew
  generalize s.guarded n key (.extend f ttl) = called
  obtain ⟨e | _ | l, t⟩ := called <;> simp

theorem renews_of_owner (h : OneOwner (fun op => (s.leaseRun key op).1) s.now f) :
    s.Renews n key f := by
  intro hpass ttl hrange hget hextend
  have hshown : Owns (fun op => (s.guarded n key op).1) f ↔ Owns (fun op => (s.leaseRun key op).1) f :=
    exists_congr fun l => and_congr_left' (guarded_iff hpass hget (some l))
  have hextended : (∃ l, (s.guarded n key (.extend f ttl)).1 = .ok (some l)) ↔
      ∃ l, (s.leaseRun key (.extend f ttl)).1 = .ok (some l) :=
    exists_congr fun l => guarded_iff hpass hextend (some l)
  rw [check_iff, renew_iff, hshown, hextended, h.extends_iff ttl hrange]

end Site

namespace DirectoryLeases

open FileTree

variable {t : FileTree} {d key other e : String} {now : Instant} {op : LeaseOp} {k : KeyState}

/-- Whether the names of all files of a key are accepted. -/
def Named (d key : String) : Prop := ∀ e ∈ extensions, Nameable (path d key e)

/-- The name of a key's file is made of the key's name and the extension, and the file is in the directory
itself. -/
theorem name_path (h : key ≠ "") (he : e ∈ extensions) :
    name (path d key e) = fileStem key ++ e ∧ parent (path d key e) = d := by
  have hplain : ∀ c ∈ ((fileStem key).toList ++ e.toList).reverse, decide (c ≠ '/') = true := by
    intro c hc
    rcases List.mem_append.mp (List.mem_reverse.mp hc) with hc | hc
    · exact decide_eq_true (fileStem_plain c hc).1
    · exact decide_eq_true ((extension_shape he).2 c hc)
  have hreverse : (path d key e).toList.reverse =
      ((fileStem key).toList ++ e.toList).reverse ++ '/' :: d.toList.reverse := by
    simp [path_toList, place, h]
  unfold name parent
  rw [hreverse, List.takeWhile_append_of_pos hplain, List.dropWhile_append_of_pos hplain]
  simp

theorem nameable_path (h : key ≠ "") (he : e ∈ extensions) :
    Nameable (path d key e) ↔ (fileStem key).utf8ByteSize + e.utf8ByteSize ≤ nameLimit := by
  have hsome : (path d key e).isEmpty = false := by
    simp [path, h]
  rw [Nameable, (name_path h he).1, String.utf8ByteSize_append, Nat.not_lt]
  exact and_iff_right hsome

/-- Nine bytes are for the longest extension. -/
theorem named_iff (h : key ≠ "") : Named d key ↔ (fileStem key).utf8ByteSize + 9 ≤ nameLimit := by
  constructor
  · intro hnamed
    exact (nameable_path h (by simp [extensions])).mp (hnamed ".json.tmp" (by simp [extensions]))
  · intro hshort e he
    have hsize : e.utf8ByteSize ≤ 9 := by
      revert e
      decide
    exact (nameable_path h he).mpr (by omega)

theorem named_congr (h : path d key ".json" = path d other ".json") : Named d key ↔ Named d other := by
  have hname := (path_eq_iff (e := ".json") (by decide)).mp h
  refine forall₂_congr fun e he => ?_
  rw [(path_eq_iff (extension_shape he).1).mpr hname]

theorem touch_nameable {t' : FileTree} {p : String} (h : t.touch p = .ok t') : Nameable p := by
  unfold touch at h
  cases hw : t.writable p with
  | error f =>
    rw [hw] at h
    cases h
  | ok u => exact writable_ok hw

/-- A state is put in place only if the names of both files that this takes are accepted. -/
theorem store_nameable (h : (store t d key k).1 = .ok ()) :
    Nameable (path d key ".json.tmp") ∧ Nameable (path d key ".json") := by
  unfold store at h
  dsimp only at h
  split at h
  · cases h
  · rename_i t₁ hw
    split at h
    · cases h
    · rename_i t₂ hr
      obtain ⟨content, hread, hname, -⟩ := rename_ok hr
      exact ⟨(read_ok.mp hread).1, hname⟩

/-- The state of a key is changed only if the names of all its files are accepted. -/
theorem run_named (t : FileTree) (d : String) (now : Instant) (key : String) (op : LeaseOp) :
    Named d key ∨ (run t d now key op).2.lookup? (path d key ".json") = t.lookup? (path d key ".json") := by
  rcases run_cases t d now key op with ⟨e, hr⟩ | ⟨t₁, htouch, hrest⟩
  · exact .inr (by rw [hr])
  have hkept := touch_other htouch (path_ne d key key).1
  rcases hrest with ⟨e, hr⟩ | ⟨k, a, -, -, ⟨-, hr⟩ | ⟨-, -, hr⟩⟩
  · exact .inr (by rw [hr]; exact hkept)
  · exact .inr (by rw [hr]; exact hkept)
  · rw [hr]
    rcases store_state t₁ d key (k.run key now op).2 with ⟨hstored, -⟩ | ⟨-, hsame⟩
    · obtain ⟨hwritten, hplaced⟩ := store_nameable hstored
      refine .inl fun e he => ?_
      simp only [extensions, List.mem_cons, List.not_mem_nil, or_false] at he
      rcases he with rfl | rfl | rfl
      · exact touch_nameable htouch
      · exact hplaced
      · exact hwritten
    · exact .inr (hsame.trans hkept)

/-- Nothing is put on record for a key with a file whose name is not accepted. -/
theorem run_unnamed (h : ¬Named d key) (now : Instant) (other : String) (op : LeaseOp) :
    (run t d now other op).2.lookup? (path d key ".json") = t.lookup? (path d key ".json") := by
  by_cases hfile : path d key ".json" = path d other ".json"
  · rcases run_named t d now other op with hnamed | hsame
    · exact absurd ((named_congr hfile).mpr hnamed) h
    · rw [hfile]
      exact hsame
  · obtain ⟨hlock, htmp⟩ := path_ne d key other
    exact run_lookup now op hlock htmp hfile

theorem left_unnamed (h : ¬Named d key) {events : List LeaseEvent}
    (hopen : ∀ p ∈ ancestors d, t.lookup? p = some .directory)
    (hnone : t.lookup? (path d key ".json") = none) :
    ∃ t', left d t events = .ok t' ∧ t'.lookup? (path d key ".json") = none := by
  induction events generalizing t with
  | nil => exact ⟨t, rfl, hnone⟩
  | cons event events ih =>
    cases event with
    | opens =>
      simp only [left, makeDirectories_again hopen]
      exact ih hopen hnone
    | serves r =>
      have hsame := run_directories t d r.time r.key r.op
      exact ih (fun p hp => (hsame p).mpr (hopen p hp)) ((run_unnamed h r.time r.key r.op).trans hnone)

/-- Where the state of a key is on record, one owner is told of it. -/
theorem Holds.one_owner {n : Nat} (h : Holds d t n key fun _ => True) (now : Instant) (f : Fence) :
    OneOwner (fun op => (DirectoryLeases.run t d now key op).1) now f ∧
      GrantsVacant (fun op => (DirectoryLeases.run t d now key op).1) now := by
  obtain ⟨k, hstored, hk, -, -⟩ := h.filed
  have hanswers := hstored.answers hk h.housed now
  exact ⟨(k.one_owner key now f).congr hanswers, (k.grants_vacant key now).congr hanswers⟩

/-- Where nothing is on record for a key, nobody owns it. -/
theorem one_owner_missing (h : t.lookup? (path d key ".json") = none) (now : Instant) (f : Fence) :
    OneOwner (fun op => (run t d now key op).1) now f := by
  have hstored : Stored t (path d key ".json") {} := .inr ⟨h, rfl⟩
  exact KeyState.one_owner_empty fun op a ha => ((run_stored hstored KeyState.storable_empty op).2 a ha).1

/-- What a directory says of the owner of a key after any requests, however often stores are opened on it. -/
theorem one_owner_left {events : List LeaseEvent}
    (hopen : ∀ p ∈ ancestors d, t.lookup? p = some .directory)
    (hfiles : ∀ e ∈ extensions, t.lookup? (path d key e) = none ∧
      (Nameable (path d key e) → t.writable (path d key e) = .ok ()))
    (hsized : ∀ r ∈ LeaseEvent.requests events, r.op.sized)
    (hroom : (LeaseEvent.requests events).length < Word.size64) :
    ∃ t', left d t events = .ok t' ∧ ∀ now f, OneOwner (fun op => (run t' d now key op).1) now f ∧
      (Named d key → GrantsVacant (fun op => (run t' d now key op).1) now) := by
  by_cases hnamed : Named d key
  · have hstart := Holds.fresh (fun e he => ⟨(hfiles e he).1, (hfiles e he).2 (hnamed e he)⟩) hroom
    obtain ⟨t', hleft, -, h⟩ := hstart.trivial.left (n := 0) hopen hsized fun _ _ _ _ => trivial
    exact ⟨t', hleft, fun now f => ⟨(h.one_owner now f).1, fun _ => (h.one_owner now f).2⟩⟩
  · obtain ⟨t', hleft, hnone⟩ := left_unnamed hnamed hopen (hfiles ".json" (by simp [extensions])).1
    exact ⟨t', hleft, fun now f => ⟨one_owner_missing hnone now f, fun h => absurd h hnamed⟩⟩

/-- There is one notion of who owns a key. Whatever a store in memory has on record, and whatever requests a
store in a directory has served, on whatever keys and with whatever clock: at every instant the live lease
is the one whose fence extends, deletes and replaces it, and the one that a node finds in a check just if it
would renew it. Who expects no lease is granted one just if none is shown, in a directory if the names of the
key's files are accepted. -/
theorem ownership_agrees (d key : String) (files t : FileTree) (events : List LeaseEvent) :
    (∀ m : MemoryLeases, (∀ now f, OneOwner (fun op => (m.run now key op).1) now f ∧
        GrantsVacant (fun op => (m.run now key op).1) now) ∧
      ∀ s : Site, s.leases = .memory m → ∀ n f, s.Renews n key f) ∧
    (files.makeDirectories d = .ok t →
      (∀ e ∈ extensions, t.lookup? (path d key e) = none ∧
        (Nameable (path d key e) → t.writable (path d key e) = .ok ())) →
      (∀ r ∈ LeaseEvent.requests events, r.op.sized) →
      (LeaseEvent.requests events).length < Word.size64 →
      ∃ t', left d t events = .ok t' ∧
        (∀ now f, OneOwner (fun op => (run t' d now key op).1) now f ∧
          (Named d key → GrantsVacant (fun op => (run t' d now key op).1) now)) ∧
        ∀ s : Site, s.leases = .directory d → s.files = t' → ∀ n f, s.Renews n key f) := by
  constructor
  · intro m
    have howner := fun now f => (m.state key).one_owner key now f
    refine ⟨fun now f => ⟨howner now f, (m.state key).grants_vacant key now⟩, fun s hs n f => ?_⟩
    refine Site.renews_of_owner ?_
    simp only [Site.leaseRun, hs]
    exact howner s.now f
  · intro hopen hfiles hsized hroom
    obtain ⟨t', hleft, howner⟩ := one_owner_left (makeDirectories_ok hopen).1 hfiles hsized hroom
    refine ⟨t', hleft, howner, fun s hs ht n f => Site.renews_of_owner ?_⟩
    simp only [Site.leaseRun, hs, ht]
    exact (howner s.now f).1

theorem answer_of_toOption {α : Type} {answer : Except Stop α} {a : α} (h : answer.toOption = some a) :
    answer = .ok a := by
  cases answer with
  | ok b =>
    cases h
    rfl
  | error e => cases h

/-- A lease is shown and extended up to its expiry, and from then on the key is free. -/
theorem ownership_agrees_expired :
    let events : List LeaseEvent := [.opens, .serves ⟨⟨5000⟩, "a", .grant none "x" 0 ⟨1000⟩⟩]
    ∃ t, left "leases" ⟨[("leases", .directory)]⟩ events = .ok t ∧
      (run t "leases" ⟨5999⟩ "a" .get).1 = .ok (some ⟨"a", "x", ⟨1⟩, ⟨6000⟩, 0⟩) ∧
      (∃ l, (run t "leases" ⟨5999⟩ "a" (.extend ⟨1⟩ ⟨9000⟩)).1 = .ok (some l)) ∧
      (run t "leases" ⟨6000⟩ "a" .get).1 = .ok none ∧
      (run t "leases" ⟨6000⟩ "a" (.delete ⟨1⟩)).1 ≠ .ok true ∧
      ∃ l, (run t "leases" ⟨6000⟩ "a" (.grant none "y" 0 ⟨1000⟩)).1 = .ok (some l) := by
  intro events
  have hfiles : ∀ e ∈ extensions,
      (⟨[("leases", .directory)]⟩ : FileTree).lookup? (path "leases" "a" e) = none ∧
        (FileTree.writable ⟨[("leases", .directory)]⟩ (path "leases" "a" e)).isOk := by
    decide +kernel
  obtain ⟨t, hleft, howner, -⟩ := (ownership_agrees "leases" "a" ⟨[("leases", .directory)]⟩
    ⟨[("leases", .directory)]⟩ events).2 rfl
    (fun e he => ⟨(hfiles e he).1, fun _ => writable_isOk (hfiles e he).2⟩) (by decide +kernel)
    (by decide +kernel)
  have hshown : (left "leases" ⟨[("leases", .directory)]⟩ events).toOption.map (fun t =>
      ((run t "leases" ⟨5999⟩ "a" .get).1.toOption, (run t "leases" ⟨6000⟩ "a" .get).1.toOption)) =
      some (some (some ⟨"a", "x", ⟨1⟩, ⟨6000⟩, 0⟩), some none) := by
    decide +kernel
  rw [hleft] at hshown
  obtain ⟨hlive, hfree⟩ := Prod.mk.inj (Option.some.inj hshown)
  have hlive := answer_of_toOption hlive
  have hfree := answer_of_toOption hfree
  obtain ⟨hbefore, -⟩ := howner ⟨5999⟩ ⟨1⟩
  obtain ⟨hexpired, hvacant⟩ := howner ⟨6000⟩ ⟨1⟩
  have hnamed : Named "leases" "a" := (named_iff (by decide)).mpr (by decide +kernel)
  refine ⟨t, hleft, hlive, (hbefore.extends_iff ⟨9000⟩ (by decide)).mpr ⟨_, hlive, rfl⟩, hfree,
    fun hdeleted => ?_, (hvacant hnamed "y" 0 ⟨1000⟩ (by decide)).mpr hfree⟩
  obtain ⟨l, hl, -⟩ := hexpired.deletes_iff.mp hdeleted
  cases hfree.symm.trans hl

/-- An operation that writes is answered only if the name of the file for the complete new state is
accepted. -/
theorem run_nameable {a : op.Answer} (h : (run t d now key op).1 = .ok a) (hwrites : op.writes a) :
    Nameable (path d key ".json.tmp") := by
  rcases run_cases t d now key op with ⟨e, hr⟩ | ⟨t₁, -, ⟨e, hr⟩ | ⟨k, a', -, -, ⟨hquiet, hr⟩ | ⟨-, hr, -⟩⟩⟩
  · rw [hr] at h
    cases h
  · rw [hr] at h
    cases h
  · rw [hr] at h
    cases h
    rw [hquiet] at hwrites
    cases hwrites
  · rw [hr] at h
    cases hstore : (store t₁ d key (k.run key now op).2).1 with
    | ok u => exact (store_nameable hstore).1
    | error f =>
      rw [hstore] at h
      cases h

/-- Where nothing is on record for a key, and its state file could be made, no lease is shown. -/
theorem get_vacant (hlock : t.Allows (path d key ".lock")) (hstate : t.Allows (path d key ".json"))
    (hnone : t.lookup? (path d key ".json") = none) : (run t d now key .get).1 = .ok none := by
  obtain ⟨t₁, htouch, hsame⟩ := touch_allowed hlock
  have hstored : Stored t₁ (path d key ".json") {} :=
    .inr ⟨(touch_other htouch (path_ne d key key).1).trans hnone, rfl⟩
  have hparent : parent (path d key ".json") ≠ path d key ".lock" :=
    (path_ne_parent (extension_shape (by simp)).1 (extension_shape (by simp)).2).symm
  have hload := hstored.load_allowed KeyState.storable_empty
    (hstate.keep hsame (touch_other htouch hparent))
  unfold run
  simp only [htouch, hload]
  rfl

/-- In a directory with nothing else in it there is room for every file whose name is accepted. -/
theorem allows_fresh (h : key ≠ "") (he : e ∈ extensions) :
    let t : FileTree := ⟨[(d, .directory)]⟩
    t.lookup? (path d key e) = none ∧ (Nameable (path d key e) → t.Allows (path d key e)) := by
  intro t
  have hparent : parent (path d key e) = d := (name_path h he).2
  have hne : path d key e ≠ parent (path d key e) :=
    path_ne_parent (extension_shape he).1 (extension_shape he).2
  rw [hparent] at hne
  have hself : t.lookup? d = some .directory := by simp [t, lookup?, Keyed.find?]
  have hnone : t.lookup? (path d key e) = none := by simp [t, lookup?, Keyed.find?, hne]
  exact ⟨hnone, fun hname => {
    name := hname
    free := by simp [hnone]
    held := .inr (by rw [hparent, hself])
    clear := fun content => by simp [hparent, hself] }⟩

/-- A key whose state file has a name of accepted length, and whose file for the complete new state has not:
the key is shown to be free, and nobody is granted it. -/
theorem vacant_ungranted :
    let key := String.ofList (List.replicate 250 'a')
    let t : FileTree := ⟨[("leases", .directory)]⟩
    (FileTree.makeDirectories {} "leases").toOption = some t ∧
      (run t "leases" ⟨0⟩ key .get).1 = .ok none ∧
      (∀ l, (run t "leases" ⟨0⟩ key (.grant none "x" 0 ⟨1000⟩)).1 ≠ .ok (some l)) ∧
      ¬GrantsVacant (fun op => (run t "leases" ⟨0⟩ key op).1) ⟨0⟩ := by
  intro key t
  have hkey : key ≠ "" := by decide +kernel
  have hsize : (fileStem key).utf8ByteSize = 250 := by
    unfold fileStem
    rw [String.toList_ofList]
    decide +kernel
  have hroom {e : String} (he : e ∈ extensions) (hshort : 250 + e.utf8ByteSize ≤ nameLimit) :
      t.Allows (path "leases" key e) :=
    (allows_fresh hkey he).2 ((nameable_path hkey he).mpr (by rwa [hsize]))
  have hget : (run t "leases" ⟨0⟩ key .get).1 = .ok none :=
    get_vacant (hroom (by simp [extensions]) (by decide +kernel))
      (hroom (by simp [extensions]) (by decide +kernel))
      (allows_fresh hkey (by simp [extensions])).1
  have hungranted (l : Lease) : (run t "leases" ⟨0⟩ key (.grant none "x" 0 ⟨1000⟩)).1 ≠ .ok (some l) := by
    intro hl
    have hname := (nameable_path hkey (by simp [extensions])).mp (run_nameable hl rfl)
    rw [hsize] at hname
    exact absurd hname (by decide +kernel)
  refine ⟨by decide +kernel, hget, hungranted, fun hvacant => ?_⟩
  obtain ⟨l, hl⟩ := (hvacant "x" 0 ⟨1000⟩ (by decide)).mpr hget
  exact hungranted l hl

end DirectoryLeases

end FencedSessions
