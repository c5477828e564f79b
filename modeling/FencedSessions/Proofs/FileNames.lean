import FencedSessions.Lease.DirectoryStore
import FencedSessions.Proofs.SessionIds

/-! The file names of keys. An escaped character is a percent sign and a numeral without an end mark,
so a digit or letter that follows may be taken for more of the numeral, and two keys may share a
name. Where all escaped characters have numerals of one length, a name tells its key. -/

namespace FencedSessions

/-- How a character stands in a file name. -/
def stemPart (c : Char) : List Char := if isStemChar c then [c] else '%' :: Text.hex c.toNat

theorem fileStem_toList (key : String) : (fileStem key).toList = key.toList.flatMap stemPart := by
  unfold fileStem stemPart
  rw [String.toList_ofList]

/-- The characters that a key has escaped all have numerals of this length. -/
def EscapedBy (w : Nat) (key : String) : Prop :=
  ∀ c ∈ key.toList, isStemChar c = false → (Text.hex c.toNat).length = w

instance (w : Nat) (key : String) : Decidable (EscapedBy w key) :=
  inferInstanceAs (Decidable (∀ c ∈ key.toList, isStemChar c = false → (Text.hex c.toNat).length = w))

theorem hex_injective {m n : Nat} (h : Text.hex m = Text.hex n) : m = n := by
  have hm := Text.hexNumber_hex m
  rw [h, Text.hexNumber_hex n] at hm
  exact (Option.some.inj hm).symm

theorem ne_percent {c : Char} (h : isStemChar c) : c ≠ '%' := by
  intro hc
  subst hc
  cases h

/-- The first character of a name and what follows it. -/
theorem stemParts_injective {w : Nat} {cs ds : List Char}
    (hc : ∀ c ∈ cs, isStemChar c = false → (Text.hex c.toNat).length = w)
    (hd : ∀ c ∈ ds, isStemChar c = false → (Text.hex c.toNat).length = w)
    (h : cs.flatMap stemPart = ds.flatMap stemPart) : cs = ds := by
  induction cs generalizing ds with
  | nil =>
    cases ds with
    | nil => rfl
    | cons d ds =>
      by_cases hs : isStemChar d <;> simp [stemPart, hs] at h
  | cons c cs ih =>
    cases ds with
    | nil =>
      by_cases hs : isStemChar c <;> simp [stemPart, hs] at h
    | cons d ds =>
      simp only [List.mem_cons, forall_eq_or_imp] at hc hd
      simp only [List.flatMap_cons, stemPart] at h
      by_cases hcs : isStemChar c <;> by_cases hds : isStemChar d <;>
        simp only [hcs, hds, if_true, if_false, List.cons_append, List.nil_append,
          List.cons.injEq, true_and, Bool.false_eq_true] at h
      · obtain ⟨rfl, h⟩ := h
        rw [ih hc.2 hd.2 h]
      · exact absurd h.1 (ne_percent hcs)
      · exact absurd h.1.symm (ne_percent hds)
      · have hlength : (Text.hex c.toNat).length = (Text.hex d.toNat).length := by
          rw [hc.1 (by simpa using hcs), hd.1 (by simpa using hds)]
        obtain ⟨hhex, h⟩ := List.append_inj h hlength
        have hcd : c = d := Char.toNat_inj.mp (hex_injective hhex)
        rw [hcd, ih hc.2 hd.2 h]

/-- Names tell keys apart if all escapes have one length. -/
theorem fileStem_injective {w : Nat} {a b : String} (ha : EscapedBy w a) (hb : EscapedBy w b)
    (h : fileStem a = fileStem b) : a = b := by
  have hlists := congrArg String.toList h
  rw [fileStem_toList, fileStem_toList] at hlists
  exact String.toList_inj.mp (stemParts_injective ha hb hlists)

theorem isStemChar_digitChar {d : Nat} (h : d < 16) : isStemChar d.digitChar := by
  have hall : ∀ d < 16, isStemChar d.digitChar := by decide
  exact hall d h

theorem isStemChar_hex {n : Nat} : ∀ c ∈ Text.hex n, isStemChar c := by
  induction n using Nat.strongRecOn with
  | ind n ih =>
    intro c hc
    unfold Text.hex at ih hc
    rcases Nat.lt_or_ge n 16 with hn | hn
    · rw [Nat.toDigits_of_lt_base hn, List.mem_singleton] at hc
      rw [hc]
      exact isStemChar_digitChar hn
    · rw [Nat.toDigits_of_base_le (by decide) hn, List.mem_append, List.mem_singleton] at hc
      rcases hc with hc | hc
      · exact ih (n / 16) (by omega) c hc
      · rw [hc]
        exact isStemChar_digitChar (Nat.mod_lt _ (by decide))

theorem isStemChar_padded {w n : Nat} : ∀ c ∈ Text.padded 16 w n, isStemChar c := by
  induction w generalizing n with
  | zero => simp [Text.padded]
  | succ w ih =>
    intro c hc
    rcases List.mem_append.mp hc with hc | hc
    · exact ih c hc
    · rw [List.mem_singleton.mp hc]
      exact isStemChar_digitChar (Nat.mod_lt _ (by decide))

/-- A session id is its own file name. -/
theorem isStemChar_text (id : SessionId) : ∀ c ∈ id.text.toList, isStemChar c := by
  intro c hc
  rw [SessionId.text, String.toList_ofList] at hc
  simp only [SessionId.chars, List.mem_append, List.mem_cons] at hc
  rcases hc with (((hc | rfl | hc) | rfl | hc) | rfl | hc) | rfl | hc
  all_goals first | exact isStemChar_padded c hc | rfl

/-- There is no separator in a file name, neither of directories nor of an extension. -/
theorem fileStem_plain {key : String} : ∀ c ∈ (fileStem key).toList, c ≠ '/' ∧ c ≠ '.' := by
  have hstem {c : Char} (h : isStemChar c) : c ≠ '/' ∧ c ≠ '.' := by
    constructor <;> rintro rfl <;> cases h
  intro c hc
  rw [fileStem_toList, List.mem_flatMap] at hc
  obtain ⟨a, -, hc⟩ := hc
  unfold stemPart at hc
  split at hc
  · rename_i ha
    rw [List.mem_singleton.mp hc]
    exact hstem ha
  · rcases List.mem_cons.mp hc with rfl | hc
    · decide
    · exact hstem (isStemChar_hex c hc)

theorem fileStem_eq_empty {key : String} : fileStem key = "" ↔ key = "" := by
  constructor
  · intro h
    have hlist := congrArg String.toList h
    rw [fileStem_toList] at hlist
    cases hk : key.toList with
    | nil => exact String.toList_inj.mp hk
    | cons c cs =>
      rw [hk, List.flatMap_cons] at hlist
      unfold stemPart at hlist
      split at hlist <;> cases hlist
  · rintro rfl
    rfl

namespace DirectoryLeases

/-- What follows the directory in the path of a key, before the extension. -/
def place (key : String) : List Char := if key = "" then [] else '/' :: (fileStem key).toList

theorem path_toList (d key e : String) :
    (path d key e).toList = d.toList ++ (place key ++ e.toList) := by
  unfold path place
  split <;> simp

theorem place_injective {a b : String} (h : place a = place b) : fileStem a = fileStem b := by
  unfold place at h
  split at h <;> split at h
  · rename_i ha hb
    rw [ha, hb]
  · cases h
  · cases h
  · exact String.toList_inj.mp (List.cons.inj h).2

/-- An extension begins with the only dots after the directory. -/
theorem place_undotted {key : String} : ∀ c ∈ place key, c ≠ '.' := by
  intro c hc
  unfold place at hc
  split at hc
  · cases hc
  · rcases List.mem_cons.mp hc with rfl | hc
    · decide
    · exact (fileStem_plain c hc).2

theorem takeWhile_place (key : String) {e : String} (he : e.toList.head? = some '.') :
    (place key ++ e.toList).takeWhile (· ≠ '.') = place key := by
  obtain ⟨cs, hcs⟩ := List.head?_eq_some_iff.mp he
  rw [List.takeWhile_append_of_pos (by simpa using place_undotted), hcs]
  simp

variable {d a b e e' : String}

/-- The files of keys with different names are different files, whatever they are for. -/
theorem path_injective (he : e.toList.head? = some '.') (he' : e'.toList.head? = some '.')
    (h : path d a e = path d b e') : fileStem a = fileStem b := by
  have hlists := congrArg String.toList h
  rw [path_toList, path_toList, List.append_cancel_left_eq] at hlists
  have hplace := takeWhile_place a he
  rw [hlists, takeWhile_place b he'] at hplace
  exact place_injective hplace.symm

theorem path_eq_iff (he : e.toList.head? = some '.') :
    path d a e = path d b e ↔ fileStem a = fileStem b := by
  constructor
  · exact path_injective he he
  · intro h
    have hempty : a = "" ↔ b = "" := by rw [← fileStem_eq_empty, h, fileStem_eq_empty]
    simp only [path, hempty, h]

/-- What comes after the last slash has no part in the path of the directory. -/
theorem parent_append {p : String} {x y : List Char} (hp : p.toList = x ++ y)
    (hy : ∀ c ∈ y, c ≠ '/') :
    (FileTree.parent p).toList = ((x.reverse.dropWhile (· ≠ '/')).drop 1).reverse := by
  have hdrop : (y.reverse ++ x.reverse).dropWhile (· ≠ '/') = x.reverse.dropWhile (· ≠ '/') :=
    List.dropWhile_append_of_pos (by simpa using hy)
  unfold FileTree.parent
  rw [String.toList_ofList, hp, List.reverse_append, hdrop]

theorem length_parent_path (he : ∀ c ∈ e.toList, c ≠ '/') :
    (FileTree.parent (path d b e)).toList.length ≤ d.toList.length := by
  by_cases hb : b = ""
  · have hpath : (path d b e).toList = d.toList ++ e.toList := by
      simp [path_toList, place, hb]
    have hle := (List.dropWhile_suffix (l := d.toList.reverse) (· ≠ '/')).length_le
    rw [parent_append hpath he, List.length_reverse, List.length_drop]
    rw [List.length_reverse] at hle
    omega
  · have hpath : (path d b e).toList = (d.toList ++ ['/']) ++ ((fileStem b).toList ++ e.toList) := by
      simp [path_toList, place, hb]
    have hplain : ∀ c ∈ (fileStem b).toList ++ e.toList, c ≠ '/' := by
      intro c hc
      rcases List.mem_append.mp hc with hc | hc
      · exact (fileStem_plain c hc).1
      · exact he c hc
    rw [parent_append hpath hplain]
    simp

/-- No file of a key is the directory that holds the files of a key. -/
theorem path_ne_parent (he : e.toList.head? = some '.') (he' : ∀ c ∈ e'.toList, c ≠ '/') :
    path d a e ≠ FileTree.parent (path d b e') := by
  intro h
  have hshort := length_parent_path (d := d) (b := b) he'
  obtain ⟨cs, hcs⟩ := List.head?_eq_some_iff.mp he
  rw [← h, path_toList, hcs, List.length_append, List.length_append, List.length_cons] at hshort
  omega

end DirectoryLeases

end FencedSessions
