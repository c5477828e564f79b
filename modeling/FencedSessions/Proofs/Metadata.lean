import Mathlib.Data.List.DropRight
import FencedSessions.Cli.Metadata
import FencedSessions.Proofs.Fields
import FencedSessions.Proofs.RoundTrips

/-! Metadata on the command line. What the entries come to is told, for each key, by the last entry that
names it. Entries that give the values of a map as JSON therefore come to the map, in whatever order they
stand. -/

namespace FencedSessions

namespace Json

/-- A text of a value, in some layout. -/
def Spells (text : String) (value : Json) : Prop :=
  ∃ layout : Layout, text = String.ofList (layout.valueOnto [] 0 value)

theorem spells_text (value : Json) : Spells value.text value :=
  ⟨Layout.dense, by rw [Layout.dense_value]; rfl⟩

theorem spells_indented (value : Json) : Spells value.indented value :=
  ⟨Layout.indent, by rw [Layout.indent_value]; rfl⟩

/-- A text of a value reads back, if the value has no floating-point numbers and does not nest too deep. -/
theorem ofText_spelled {text : String} {value : Json} (hwhole : value.Whole) (horder : value.InOrder)
    (hdepth : value.depth ≤ 127) (h : Spells text value) : Json.ofText text = .ok value := by
  obtain ⟨layout, rfl⟩ := h
  have hroom : value.depth < Reader.fullRoom := Nat.lt_succ_of_le hdepth
  rw [Json.ofText, layout.ofText_laid Reader.any hwhole.plain, Reader.any_depth horder (by decide),
    if_pos hroom]
  rfl

end Json

namespace Cli

variable {entries : List String} {entry key text : String} {fields : List (String × Json)}

/-- The entry that gives a key a text. -/
def entryOf (key text : String) : String := key ++ "=" ++ text

theorem toList_entryOf (key text : String) : (entryOf key text).toList = key.toList ++ '=' :: text.toList := by
  simp [entryOf]

theorem splitEntry?_entryOf (h : '=' ∉ key.toList) (text : String) :
    splitEntry? (entryOf key text) = some (key, text) := by
  have hkey : ∀ c ∈ key.toList, decide (c ≠ '=') := by
    intro c hc
    refine decide_eq_true ?_
    rintro rfl
    exact h hc
  unfold splitEntry?
  simp only [toList_entryOf, List.dropWhile_append_of_pos hkey, List.takeWhile_append_of_pos hkey]
  simp

theorem splitEntry?_eq_none (h : '=' ∉ entry.toList) : splitEntry? entry = none := by
  have hdrop : entry.toList.dropWhile (· ≠ '=') = [] := by
    refine List.dropWhile_eq_nil_iff.mpr fun c hc => decide_eq_true ?_
    rintro rfl
    exact h hc
  unfold splitEntry?
  simp only [hdrop]

/-- An entry with an equals sign gives a text to what stands before the first one. -/
theorem exists_entryOf (h : '=' ∈ entry.toList) :
    ∃ key text, '=' ∉ key.toList ∧ entry = entryOf key text := by
  obtain ⟨before, after, hsplit, hfirst⟩ := List.eq_append_cons_of_mem h
  refine ⟨String.ofList before, String.ofList after, by simpa using hfirst, ?_⟩
  rw [← String.toList_inj, toList_entryOf, hsplit]
  simp

theorem entryOf_inj {key' text' : String} (h : '=' ∉ key.toList) (h' : '=' ∉ key'.toList)
    (heq : entryOf key text = entryOf key' text') : key = key' ∧ text = text' := by
  have hsplit := splitEntry?_entryOf h text
  rw [heq, splitEntry?_entryOf h' text'] at hsplit
  cases hsplit
  exact ⟨rfl, rfl⟩

theorem parseMetadata_entryOf (entries : List String) (h : '=' ∉ key.toList) (text : String) :
    parseMetadata (entries ++ [entryOf key text]) =
      (parseMetadata entries).map (Json.insertField key (entryValue text)) := by
  unfold parseMetadata
  rw [List.foldlM_append]
  simp only [List.foldlM_cons, List.foldlM_nil, splitEntry?_entryOf h]
  rw [← parseMetadata]
  cases parseMetadata entries <;> rfl

theorem parseMetadata_bad (entries : List String) (h : '=' ∉ entry.toList) :
    parseMetadata (entries ++ [entry]) = (parseMetadata entries).bind fun _ => .error ⟨entry⟩ := by
  unfold parseMetadata
  rw [List.foldlM_append]
  simp only [List.foldlM_cons, List.foldlM_nil, splitEntry?_eq_none h]
  rfl

/-- Entries are refused for the first one of them that has no equals sign. -/
theorem parseMetadata_error (bad : String) :
    parseMetadata entries = .error ⟨bad⟩ ↔ entries.find? (fun entry => '=' ∉ entry.toList) = some bad := by
  induction entries using List.reverseRecOn generalizing bad with
  | nil => simp [parseMetadata, pure, Except.pure]
  | append_singleton entries entry ih =>
    by_cases hentry : '=' ∈ entry.toList
    · obtain ⟨key, text, hkey, rfl⟩ := exists_entryOf hentry
      rw [parseMetadata_entryOf entries hkey, List.find?_append, List.find?_cons_of_neg (by simpa using hentry),
        List.find?_nil, Option.or_none, ← ih]
      cases parseMetadata entries <;> simp [Except.map]
    · rw [parseMetadata_bad entries hentry, List.find?_append, List.find?_cons_of_pos (by simpa using hentry)]
      cases hparse : parseMetadata entries with
      | error earlier =>
        rw [(ih earlier.entry).mp hparse]
        cases earlier
        simp [Except.bind]
      | ok fields =>
        have hnone : entries.find? (fun entry => '=' ∉ entry.toList) = none := by
          cases hfind : entries.find? (fun entry => '=' ∉ entry.toList) with
          | none => rfl
          | some earlier => rw [(ih earlier).mpr hfind] at hparse; cases hparse
        rw [hnone]
        simp [Except.bind]

/-- The last entry that names a key gives it a text. -/
def LastFor (entries : List String) (key text : String) : Prop :=
  '=' ∉ key.toList ∧ ∃ before after, entries = before ++ entryOf key text :: after ∧
    ∀ entry ∈ after, ∀ other, entry ≠ entryOf key other

theorem lastFor_concat {k t : String} (hk : '=' ∉ k.toList) :
    LastFor (entries ++ [entryOf k t]) key text ↔ if key = k then text = t else LastFor entries key text := by
  constructor
  · rintro ⟨hkey, before, after, hsplit, hlast⟩
    rcases List.eq_nil_or_concat after with rfl | ⟨after, last, rfl⟩
    · obtain ⟨-, hentry⟩ := List.append_inj' hsplit rfl
      obtain ⟨rfl, rfl⟩ := entryOf_inj hk hkey (List.cons.inj hentry).1
      rw [if_pos rfl]
    · rw [List.concat_eq_append, ← List.cons_append, ← List.append_assoc] at hsplit
      obtain ⟨hentries, hentry⟩ := List.append_inj' hsplit rfl
      rw [List.concat_eq_append] at hlast
      have hne : key ≠ k := by
        rintro rfl
        exact hlast last (by simp) t (List.cons.inj hentry).1.symm
      rw [if_neg hne]
      exact ⟨hkey, before, after, hentries, fun entry h => hlast entry (List.mem_append_left _ h)⟩
  · split
    · rename_i heq
      rintro rfl
      subst heq
      exact ⟨hk, entries, [], rfl, by simp⟩
    · rename_i hne
      rintro ⟨hkey, before, after, rfl, hlast⟩
      refine ⟨hkey, before, after ++ [entryOf k t], by simp, fun entry h other => ?_⟩
      rcases List.mem_append.mp h with h | h
      · exact hlast entry h other
      · rw [List.mem_singleton.mp h]
        exact fun heq => hne (entryOf_inj hk hkey heq).1.symm

/-- The fields that entries come to, told from the entries. -/
structure Parsed (entries : List String) (fields : List (String × Json)) : Prop where
  ascending : Json.Ascending fields
  lookup : ∀ key value,
    fields.lookup key = some value ↔ ∃ text, LastFor entries key text ∧ entryValue text = value

theorem parsed_of_ok (h : parseMetadata entries = .ok fields) : Parsed entries fields := by
  induction entries using List.reverseRecOn generalizing fields with
  | nil =>
    cases h
    exact ⟨List.Pairwise.nil, fun key value => by simp [LastFor]⟩
  | append_singleton entries entry ih =>
    by_cases hentry : '=' ∈ entry.toList
    · obtain ⟨k, t, hk, rfl⟩ := exists_entryOf hentry
      rw [parseMetadata_entryOf entries hk] at h
      cases hparse : parseMetadata entries with
      | error e => rw [hparse] at h; cases h
      | ok earlier =>
        rw [hparse] at h
        cases h
        have ih := ih hparse
        refine ⟨Json.ascending_insertField ih.ascending, fun key value => ?_⟩
        simp only [Json.lookup_insertField, lastFor_concat hk]
        split
        · simp
        · exact ih.lookup key value
    · rw [parseMetadata_bad entries hentry] at h
      cases hparse : parseMetadata entries <;> rw [hparse] at h <;> cases h

/-- What the text of an entry says: the JSON that it is, or itself if it is none. -/
inductive Says (text : String) : Json → Prop where
  | json {value : Json} (h : Json.ofText text = .ok value) : Says text value
  | plain (h : ∀ value, Json.ofText text ≠ .ok value) : Says text (.string text)

theorem says_iff {value : Json} : Says text value ↔ entryValue text = value := by
  unfold entryValue
  constructor
  · rintro (h | h)
    · rw [h]
    · cases hread : Json.ofText text with
      | ok value => exact absurd hread (h value)
      | error _ => rfl
  · rintro rfl
    cases hread : Json.ofText text with
    | ok value => exact .json hread
    | error _ => exact .plain fun value h => by rw [hread] at h; cases h

/-- What entries come to: the last one for a key tells its value, and one without an equals sign spoils them
all. -/
structure EntryLaws (entries : List String) : Prop where
  refused : (∃ e, parseMetadata entries = .error e) ↔ ∃ entry ∈ entries, '=' ∉ entry.toList
  blamed : ∀ bad, parseMetadata entries = .error ⟨bad⟩ ↔
    entries.find? (fun entry => '=' ∉ entry.toList) = some bad
  ascending : ∀ fields, parseMetadata entries = .ok fields → Json.Ascending fields
  found : ∀ fields, parseMetadata entries = .ok fields → ∀ key value,
    fields.lookup key = some value ↔ ∃ text, LastFor entries key text ∧ Says text value

theorem entry_laws (entries : List String) : EntryLaws entries where
  refused := by
    constructor
    · rintro ⟨⟨bad⟩, h⟩
      have hfind := parseMetadata_error bad |>.mp h
      exact ⟨bad, List.mem_of_find?_eq_some hfind, by simpa using List.find?_some hfind⟩
    · rintro ⟨entry, hentry, hbad⟩
      have hsome : (entries.find? fun entry => '=' ∉ entry.toList).isSome :=
        List.find?_isSome.mpr ⟨entry, hentry, decide_eq_true hbad⟩
      obtain ⟨bad, hfind⟩ := Option.isSome_iff_exists.mp hsome
      exact ⟨⟨bad⟩, (parseMetadata_error bad).mpr hfind⟩
  blamed := parseMetadata_error
  ascending fields h := (parsed_of_ok h).ascending
  found fields h key value := by
    simp only [(parsed_of_ok h).lookup, says_iff]

section Listing

variable {listed : List (String × Json)} {write : String × Json → String}

/-- The entries of fields in the order they are listed, with a text for each value. -/
def listing (write : String × Json → String) (listed : List (String × Json)) : List String :=
  listed.map fun f => entryOf f.1 (write f)

theorem lastFor_listing (hname : ∀ f ∈ listed, '=' ∉ f.1.toList)
    (hdistinct : listed.Pairwise fun f g => f.1 ≠ g.1) :
    LastFor (listing write listed) key text ↔ ∃ value, (key, value) ∈ listed ∧ write (key, value) = text := by
  constructor
  · rintro ⟨hkey, before, after, hsplit, -⟩
    obtain ⟨_, _, rfl, -, hsplit⟩ := List.map_eq_append_iff.mp hsplit
    obtain ⟨⟨k, value⟩, _, rfl, hentry, -⟩ := List.map_eq_cons_iff.mp hsplit
    obtain ⟨rfl, htext⟩ := entryOf_inj (hname (k, value) (by simp)) hkey hentry
    exact ⟨value, by simp, htext⟩
  · rintro ⟨value, hmem, rfl⟩
    obtain ⟨before, after, rfl⟩ := List.append_of_mem hmem
    refine ⟨hname _ hmem, listing write before, listing write after, by simp [listing], ?_⟩
    intro entry hentry other heq
    obtain ⟨g, hg, rfl⟩ := List.mem_map.mp hentry
    have hlater := (List.pairwise_append.mp hdistinct).2.1
    refine (List.pairwise_cons.mp hlater).1 g hg ?_
    exact (entryOf_inj (hname g (by simp [hg])) (hname _ hmem) heq).1.symm

theorem parseMetadata_listing (hfields : Json.Ascending fields) (hlisted : listed.Perm fields)
    (hname : ∀ f ∈ fields, '=' ∉ f.1.toList) (hread : ∀ f ∈ fields, Json.ofText (write f) = .ok f.2) :
    parseMetadata (listing write listed) = .ok fields := by
  have hname' : ∀ f ∈ listed, '=' ∉ f.1.toList := fun f hf => hname f (hlisted.mem_iff.mp hf)
  have hdistinct : listed.Pairwise fun f g => f.1 ≠ g.1 := by
    refine (hlisted.pairwise_iff fun h => h.symm).mpr (hfields.imp fun {f g} hlt heq => ?_)
    exact String.lt_irrefl _ (heq ▸ hlt)
  cases hparse : parseMetadata (listing write listed) with
  | error e =>
    obtain ⟨entry, hentry, hbad⟩ := (entry_laws _).refused.mp ⟨e, hparse⟩
    obtain ⟨f, -, rfl⟩ := List.mem_map.mp hentry
    exact absurd (by simp [toList_entryOf]) hbad
  | ok parsed =>
    -- both are in order, so it is enough that they have the same fields
    have laws := parsed_of_ok hparse
    refine congrArg Except.ok (Json.ascending_ext laws.ascending hfields fun ⟨key, value⟩ => ?_)
    have hvalues : ∀ f ∈ listed, entryValue (write f) = f.2 := fun f hf =>
      says_iff.mp (.json (hread f (hlisted.mem_iff.mp hf)))
    rw [← Json.lookup_eq_some_iff laws.ascending, laws.lookup, ← hlisted.mem_iff]
    simp only [lastFor_listing hname' hdistinct]
    constructor
    · rintro ⟨_, ⟨v, hmem, rfl⟩, rfl⟩
      rwa [hvalues _ hmem]
    · exact fun hmem => ⟨_, ⟨value, hmem, rfl⟩, hvalues _ hmem⟩

end Listing

/-- A field that an entry can give. -/
structure Givable (f : String × Json) : Prop where
  name : '=' ∉ f.1.toList
  whole : f.2.Whole
  inOrder : f.2.InOrder
  shallow : f.2.depth ≤ 127

/-- The entries of a map, in any order and with its values in any layout, come to the map. All entries
whatever go by the laws. -/
theorem metadata_lossless :
    (∀ fields listed write, Json.Ascending fields → (∀ f ∈ fields, Givable f) → listed.Perm fields →
      (∀ f ∈ fields, Json.Spells (write f) f.2) → parseMetadata (listing write listed) = .ok fields) ∧
    ∀ entries, EntryLaws entries := by
  refine ⟨fun fields listed write hfields hgivable hlisted hwrite => ?_, entry_laws⟩
  refine parseMetadata_listing hfields hlisted (fun f hf => (hgivable f hf).name) fun f hf => ?_
  have hf' := hgivable f hf
  exact Json.ofText_spelled hf'.whole hf'.inOrder hf'.shallow (hwrite f hf)

theorem metadata_lossless_relisted :
    parseMetadata ["note=\"a=b\\n\"", "limits=[-3,[null]]"] =
      .ok [("limits", .array [.number (.int (-3)), .array [.null]]), ("note", .string "a=b\n")] ∧
    EntryLaws ["note=old", "note=a=b", "limits"] := by
  have hint : Json.Integral (-3) := by decide
  have hlimits : Givable ("limits", .array [.number (.int (-3)), .array [.null]]) :=
    ⟨by decide, ⟨hint, ⟨trivial, trivial⟩, trivial⟩, ⟨trivial, ⟨trivial, trivial⟩, trivial⟩, by decide⟩
  have hnote : Givable ("note", .string "a=b\n") := ⟨by decide, trivial, trivial, by decide⟩
  have hentries :
      listing (fun f => f.2.text)
        [("note", .string "a=b\n"), ("limits", .array [.number (.int (-3)), .array [.null]])] =
      ["note=\"a=b\\n\"", "limits=[-3,[null]]"] := by decide
  refine ⟨?_, metadata_lossless.2 _⟩
  rw [← hentries]
  exact metadata_lossless.1 _ _ _ (by decide) (by simp [hlimits, hnote]) (List.Perm.swap ..)
    fun f _ => Json.spells_text f.2

end Cli

end FencedSessions
