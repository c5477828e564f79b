import FencedSessions.Proofs.JsonTokens

/-! The scanner finds in a printed text the value that was printed, whether the text is in one line
or indented, and leaves what follows it. -/

namespace FencedSessions.Json

open Sketch

mutual
/-- Has numbers that are read as they are written. -/
def Plain : Json → Prop
  | .null | .bool _ | .string _ => True
  | .number n => Readable n
  | .array items => PlainItems items
  | .object fields => PlainFields fields

def PlainItems : List Json → Prop
  | [] => True
  | v :: vs => v.Plain ∧ PlainItems vs

def PlainFields : List (String × Json) → Prop
  | [] => True
  | (_, v) :: fields => v.Plain ∧ PlainFields fields
end

mutual
/-- Is read as a value like it, whose numbers are what its numerals are read as. -/
inductive ReadAs : Json → Json → Prop
  | null : ReadAs .null .null
  | bool (b : Bool) : ReadAs (.bool b) (.bool b)
  | string (s : String) : ReadAs (.string s) (.string s)
  | number {n m : Number} : Reads n m → ReadAs (.number n) (.number m)
  | array {vs ws : List Json} : ItemsReadAs vs ws → ReadAs (.array vs) (.array ws)
  | object {fs gs : List (String × Json)} : FieldsReadAs fs gs → ReadAs (.object fs) (.object gs)

inductive ItemsReadAs : List Json → List Json → Prop
  | nil : ItemsReadAs [] []
  | cons {v w : Json} {vs ws : List Json} :
    ReadAs v w → ItemsReadAs vs ws → ItemsReadAs (v :: vs) (w :: ws)

inductive FieldsReadAs : List (String × Json) → List (String × Json) → Prop
  | nil : FieldsReadAs [] []
  | cons (k : String) {v w : Json} {fs gs : List (String × Json)} :
    ReadAs v w → FieldsReadAs fs gs → FieldsReadAs ((k, v) :: fs) ((k, w) :: gs)
end

mutual
theorem Plain.readAs : ∀ {j : Json}, j.Plain → j.ReadAs j
  | .null, _ => .null
  | .bool b, _ => .bool b
  | .string s, _ => .string s
  | .number _, h => .number h
  | .array _, h => .array (PlainItems.readAs h)
  | .object _, h => .object (PlainFields.readAs h)

theorem PlainItems.readAs : ∀ {vs : List Json}, PlainItems vs → ItemsReadAs vs vs
  | [], _ => .nil
  | _ :: _, h => .cons h.1.readAs (PlainItems.readAs h.2)

theorem PlainFields.readAs : ∀ {fields : List (String × Json)}, PlainFields fields → FieldsReadAs fields fields
  | [], _ => .nil
  | (k, _) :: _, h => .cons k h.1.readAs (PlainFields.readAs h.2)
end

/-- Where the blanks of a text stand: in front of the items and the end of a container, by its depth,
and after a colon. -/
structure Layout where
  gap : (depth : Nat) → List Char
  colon : List Char
  blank_gap : ∀ depth, ∀ c ∈ gap depth, isBlank c
  blank_colon : ∀ c ∈ colon, isBlank c

namespace Layout

mutual
/-- The text of a value at a depth, in front of `rest`. -/
def valueOnto (l : Layout) (rest : List Char) (depth : Nat) : Json → List Char
  | .array (v :: vs) =>
    '[' :: (l.gap (depth + 1) ++ l.valueOnto
      (l.itemsOnto (l.gap depth ++ ']' :: rest) (depth + 1) vs) (depth + 1) v)
  | .object ((k, v) :: fields) =>
    '{' :: (l.gap (depth + 1) ++ (quoted k ++ ':' :: (l.colon ++ l.valueOnto
      (l.fieldsOnto (l.gap depth ++ '}' :: rest) (depth + 1) fields) (depth + 1) v)))
  | .null => charsOnto rest .null
  | .bool b => charsOnto rest (.bool b)
  | .number n => charsOnto rest (.number n)
  | .string s => charsOnto rest (.string s)
  | .array [] => charsOnto rest (.array [])
  | .object [] => charsOnto rest (.object [])

def itemsOnto (l : Layout) (rest : List Char) (depth : Nat) : List Json → List Char
  | [] => rest
  | v :: vs => ',' :: (l.gap depth ++ l.valueOnto (l.itemsOnto rest depth vs) depth v)

def fieldsOnto (l : Layout) (rest : List Char) (depth : Nat) : List (String × Json) → List Char
  | [] => rest
  | (k, v) :: fields =>
    ',' :: (l.gap depth ++ (quoted k ++ ':' :: (l.colon ++
      l.valueOnto (l.fieldsOnto rest depth fields) depth v)))
end

/-- All in one line. -/
def dense : Layout := ⟨fun _ => [], [], by simp, by simp⟩

def indent : Layout where
  gap := newline
  colon := [' ']
  blank_gap := by
    intro depth c hc
    rcases List.mem_cons.mp hc with rfl | hc
    · rfl
    · rw [List.eq_of_mem_replicate hc]
      rfl
  blank_colon c hc := by
    cases List.mem_singleton.mp hc
    rfl

mutual
theorem dense_value (rest : List Char) (depth : Nat) :
    ∀ j, dense.valueOnto rest depth j = charsOnto rest j
  | .null | .bool _ | .number _ | .string _ | .array [] | .object [] => rfl
  | .array (v :: vs) => by
    simp only [valueOnto, charsOnto, dense_items, dense_value]
    rfl
  | .object ((k, v) :: fields) => by
    simp only [valueOnto, charsOnto, dense_fields, dense_value]
    rfl

theorem dense_items (rest : List Char) (depth : Nat) :
    ∀ vs, dense.itemsOnto rest depth vs = Json.itemsOnto rest vs
  | [] => rfl
  | v :: vs => by
    simp only [itemsOnto, Json.itemsOnto, dense_items, dense_value]
    rfl

theorem dense_fields (rest : List Char) (depth : Nat) :
    ∀ fields, dense.fieldsOnto rest depth fields = Json.fieldsOnto rest fields
  | [] => rfl
  | (k, v) :: fields => by
    simp only [fieldsOnto, Json.fieldsOnto, dense_fields, dense_value]
    rfl
end

mutual
theorem indent_value (rest : List Char) (depth : Nat) :
    ∀ j, indent.valueOnto rest depth j = indentedOnto rest depth j
  | .null | .bool _ | .number _ | .string _ | .array [] | .object [] => rfl
  | .array (v :: vs) => by
    simp only [valueOnto, indentedOnto, indent_items, indent_value]
    rfl
  | .object ((k, v) :: fields) => by
    simp only [valueOnto, indentedOnto, indent_fields, indent_value, List.append_assoc]
    rfl

theorem indent_items (rest : List Char) (depth : Nat) :
    ∀ vs, indent.itemsOnto rest depth vs = indentedItems rest depth vs
  | [] => rfl
  | v :: vs => by
    simp only [itemsOnto, indentedItems, indent_items, indent_value]
    rfl

theorem indent_fields (rest : List Char) (depth : Nat) :
    ∀ fields, indent.fieldsOnto rest depth fields = indentedFields rest depth fields
  | [] => rfl
  | (k, v) :: fields => by
    simp only [fieldsOnto, indentedFields, indent_fields, indent_value, List.append_assoc]
    rfl
end

variable (l : Layout)

mutual
theorem length_valueOnto (rest : List Char) (depth : Nat) :
    ∀ j, rest.length ≤ (l.valueOnto rest depth j).length
  | .null | .bool true | .bool false | .array [] | .object [] => by
    simp [valueOnto, charsOnto]
    omega
  | .number n => by simp [valueOnto, charsOnto]
  | .string s => by simp [valueOnto, charsOnto]
  | .array (v :: vs) => by
    have hv := length_valueOnto (l.itemsOnto (l.gap depth ++ ']' :: rest) (depth + 1) vs) (depth + 1) v
    have hvs := length_itemsOnto (l.gap depth ++ ']' :: rest) (depth + 1) vs
    simp only [valueOnto, List.length_cons, List.length_append] at hvs ⊢
    omega
  | .object ((k, v) :: fields) => by
    have hv := length_valueOnto (l.fieldsOnto (l.gap depth ++ '}' :: rest) (depth + 1) fields)
      (depth + 1) v
    have hfields := length_fieldsOnto (l.gap depth ++ '}' :: rest) (depth + 1) fields
    simp only [valueOnto, List.length_cons, List.length_append] at hfields ⊢
    omega

theorem length_itemsOnto (rest : List Char) (depth : Nat) :
    ∀ vs, rest.length ≤ (l.itemsOnto rest depth vs).length
  | [] => Nat.le_refl _
  | v :: vs => by
    have hv := length_valueOnto (l.itemsOnto rest depth vs) depth v
    have hvs := length_itemsOnto rest depth vs
    simp only [itemsOnto, List.length_cons, List.length_append]
    omega

theorem length_fieldsOnto (rest : List Char) (depth : Nat) :
    ∀ fields, rest.length ≤ (l.fieldsOnto rest depth fields).length
  | [] => Nat.le_refl _
  | (k, v) :: fields => by
    have hv := length_valueOnto (l.fieldsOnto rest depth fields) depth v
    have hfields := length_fieldsOnto rest depth fields
    simp only [fieldsOnto, List.length_cons, List.length_append]
    omega
end

end Layout

/-- Neither a blank nor the end of a container. -/
def Opening (c : Char) : Prop := isBlank c = false ∧ c ≠ ']' ∧ c ≠ '}'

theorem opening_numeral {c : Char} (h : c = '-' ∨ c.isDigit) : Opening c := by
  rcases h with rfl | h
  · simp [Opening, isBlank]
  · refine ⟨?_, ?_, ?_⟩
    · simp only [isBlank, Bool.or_eq_false_iff, decide_eq_false_iff_not]
      refine ⟨⟨⟨?_, ?_⟩, ?_⟩, ?_⟩ <;> rintro rfl <;> cases h
    · rintro rfl
      cases h
    · rintro rfl
      cases h

theorem skipBlanks_cons {c : Char} (h : isBlank c = false) (cs : List Char) :
    skipBlanks (c :: cs) = c :: cs := by
  simp [skipBlanks, h]

section Blanks

variable {b : List Char} (hb : ∀ c ∈ b, isBlank c)
include hb

theorem skipBlanks_append (cs : List Char) : skipBlanks (b ++ cs) = skipBlanks cs :=
  List.dropWhile_append_of_pos hb

theorem scanValue_blanks (fuel : Nat) (cs : List Char) :
    scanValue fuel (b ++ cs) = scanValue fuel cs := by
  cases fuel with
  | zero => rfl
  | succ fuel => simp only [scanValue, skipBlanks_append hb]

theorem scanMember_blanks (fuel : Nat) (cs : List Char) :
    scanMember fuel (b ++ cs) = scanMember fuel cs := by
  cases fuel with
  | zero => rfl
  | succ fuel => simp only [scanMember, scanValue_blanks hb]

theorem scanItems_end (fuel : Nat) (first : Bool) (rest : List Char) :
    scanItems (fuel + 1) first (b ++ ']' :: rest) = ([], none, rest) := by
  have hclose : isBlank ']' = false := rfl
  simp [scanItems, skipBlanks_append hb, skipBlanks_cons hclose]

theorem scanMembers_end (fuel : Nat) (first : Bool) (rest : List Char) :
    scanMembers (fuel + 1) first (b ++ '}' :: rest) = ([], none, rest) := by
  have hclose : isBlank '}' = false := rfl
  simp [scanMembers, skipBlanks_append hb, skipBlanks_cons hclose]

section Items

variable {fuel : Nat} {c : Char} {cs rest : List Char} {s : Sketch} (hc : Opening c)
  (h : scanValue fuel (c :: cs) = (s, rest))
include hc h

theorem scanItems_first :
    scanItems (fuel + 1) true (b ++ c :: cs) =
      (s :: (scanItems fuel false rest).1, (scanItems fuel false rest).2) := by
  obtain ⟨hblank, hclose, -⟩ := hc
  simp [scanItems, skipBlanks_append hb, skipBlanks_cons hblank, hclose, h]

theorem scanItems_next :
    scanItems (fuel + 1) false (',' :: (b ++ c :: cs)) =
      (s :: (scanItems fuel false rest).1, (scanItems fuel false rest).2) := by
  obtain ⟨hblank, hclose, -⟩ := hc
  have hcomma : isBlank ',' = false := rfl
  simp [scanItems, skipBlanks_cons hcomma, skipBlanks_append hb, skipBlanks_cons hblank, hclose,
    scanValue_blanks hb, h]

/-- An array with an item is scanned by its first item and those that follow. -/
theorem scanValue_items {ss : List Sketch} {tail : List Char}
    (hmore : scanItems fuel false rest = (ss, none, tail)) :
    scanValue (fuel + 2) ('[' :: (b ++ c :: cs)) = (.array (s :: ss) none, tail) := by
  have hopen : isBlank '[' = false := rfl
  simp only [scanValue, skipBlanks_cons hopen, scanItems_first hb hc h, hmore]

end Items

section Members

variable {fuel : Nat} {k : String} {cs rest : List Char} {m : Sketch × Sketch}
  (h : scanMember fuel (quoted k ++ cs) = (m, rest))
include h

theorem scanMembers_first :
    scanMembers (fuel + 1) true (b ++ (quoted k ++ cs)) =
      (m :: (scanMembers fuel false rest).1, (scanMembers fuel false rest).2) := by
  obtain ⟨es, hes⟩ : ∃ es, quoted k ++ cs = '"' :: es := ⟨_, rfl⟩
  have hquote : isBlank '"' = false := rfl
  rw [hes] at h ⊢
  simp [scanMembers, skipBlanks_append hb, skipBlanks_cons hquote, h]

theorem scanMembers_next :
    scanMembers (fuel + 1) false (',' :: (b ++ (quoted k ++ cs))) =
      (m :: (scanMembers fuel false rest).1, (scanMembers fuel false rest).2) := by
  obtain ⟨es, hes⟩ : ∃ es, quoted k ++ cs = '"' :: es := ⟨_, rfl⟩
  have hcomma : isBlank ',' = false := rfl
  have hquote : isBlank '"' = false := rfl
  rw [hes] at h ⊢
  simp [scanMembers, skipBlanks_cons hcomma, skipBlanks_append hb, skipBlanks_cons hquote,
    scanMember_blanks hb, h]

theorem scanValue_members {ms : List (Sketch × Sketch)} {tail : List Char}
    (hmore : scanMembers fuel false rest = (ms, none, tail)) :
    scanValue (fuel + 2) ('{' :: (b ++ (quoted k ++ cs))) = (.object (m :: ms) none, tail) := by
  have hopen : isBlank '{' = false := rfl
  simp only [scanValue, skipBlanks_cons hopen, scanMembers_first hb h, hmore]

end Members

/-- A name is read like a string, up to its colon. -/
theorem scanMember_named (k : String) {s : Sketch} {fuel : Nat} {cs rest : List Char}
    (h : scanValue fuel cs = (s, rest)) (hfuel : 0 < fuel) :
    scanMember (fuel + 1) (quoted k ++ ':' :: (b ++ cs)) = ((.string (.ok k), s), rest) := by
  obtain ⟨f, rfl⟩ : ∃ f, fuel = f + 1 := ⟨fuel - 1, by omega⟩
  have hkey : scanValue (f + 1) (quoted k ++ ':' :: (b ++ cs)) =
      (.string (.ok k), ':' :: (b ++ cs)) := by
    have hskip : isBlank '"' = false := rfl
    simp only [scanValue, quoted, List.cons_append, List.append_assoc, skipBlanks_cons hskip,
      List.nil_append, scanString_quoted]
  have hcolon : isBlank ':' = false := rfl
  simp only [scanMember, hkey, skipBlanks_cons hcolon, if_true, scanValue_blanks hb, h]

end Blanks

theorem scanValue_numeral {c : Char} (h : c = '-' ∨ c.isDigit) (fuel : Nat) (cs : List Char) :
    scanValue (fuel + 1) (c :: cs) = scanNumber (c :: cs) := by
  have hblank := (opening_numeral h).1
  have hother : c ≠ 'n' ∧ c ≠ 't' ∧ c ≠ 'f' ∧ c ≠ '"' ∧ c ≠ '[' ∧ c ≠ '{' := by
    rcases h with rfl | h
    · decide
    · refine ⟨?_, ?_, ?_, ?_, ?_, ?_⟩ <;> rintro rfl <;> cases h
  simp [scanValue, skipBlanks_cons hblank, hother, h]

namespace Layout

variable (l : Layout)

theorem valueOnto_head {j k : Json} (h : j.ReadAs k) (rest : List Char) (depth : Nat) :
    ∃ c cs, l.valueOnto rest depth j = c :: cs ∧ Opening c := by
  cases j with
  | null => exact ⟨_, _, rfl, by simp [Opening, isBlank]⟩
  | bool b => cases b <;> exact ⟨_, _, rfl, by simp [Opening, isBlank]⟩
  | string s => exact ⟨_, _, rfl, by simp [Opening, isBlank]⟩
  | array items => cases items <;> exact ⟨_, _, rfl, by simp [Opening, isBlank]⟩
  | object fields =>
    rcases fields with _ | ⟨⟨k, v⟩, fields⟩ <;> exact ⟨_, _, rfl, by simp [Opening, isBlank]⟩
  | number n =>
    cases h with | number hread
    obtain ⟨c, cs, hc, hn⟩ := reads_head hread
    exact ⟨c, cs ++ rest, by simp [valueOnto, charsOnto, hc], opening_numeral hn⟩

variable {rest : List Char} (hrest : Closed rest)
include hrest

theorem closed_itemsOnto (depth : Nat) (vs : List Json) : Closed (l.itemsOnto rest depth vs) := by
  cases vs with
  | nil => exact hrest
  | cons v vs => exact closed_cons (by decide)

theorem closed_fieldsOnto (depth : Nat) (fields : List (String × Json)) :
    Closed (l.fieldsOnto rest depth fields) := by
  cases fields with
  | nil => exact hrest
  | cons f fields => exact closed_cons (by decide)

end Layout

theorem fuel_succ {a b fuel : Nat} (h : 3 * a < fuel + 3 * b) (hle : b ≤ a) :
    ∃ f, fuel = f + 1 := ⟨fuel - 1, by omega⟩

namespace Layout

variable (l : Layout)

theorem closed_end {c : Char} (hc : c = ',' ∨ c = ']' ∨ c = '}') (depth : Nat) (rest : List Char) :
    Closed (l.gap depth ++ c :: rest) :=
  closed_blanks (l.blank_gap depth) (closed_cons hc)

mutual
/-- A printed value is scanned with three units of fuel for each of its characters. -/
theorem scanValue_laid {j k : Json} (hj : j.ReadAs k) (fuel depth : Nat) (rest : List Char)
    (hrest : Closed rest)
    (hfuel : 3 * (l.valueOnto rest depth j).length < fuel + 3 * rest.length) :
    scanValue fuel (l.valueOnto rest depth j) = (ofJson k, rest) := by
  obtain ⟨f, rfl⟩ := fuel_succ hfuel (l.length_valueOnto rest depth j)
  match hj with
  | .null | .bool true | .bool false => rfl
  | .number hread =>
    obtain ⟨c, cs, hc, hhead⟩ := reads_head hread
    have hscan := scanNumber_reads hrest hread
    simp only [valueOnto, charsOnto]
    rw [hc, List.cons_append] at hscan ⊢
    rw [scanValue_numeral hhead, hscan, ofJson]
  | .string s =>
    have hquote : isBlank '"' = false := rfl
    simp [valueOnto, charsOnto, quoted, scanValue, skipBlanks_cons hquote, scanString_quoted, ofJson]
  | .array .nil =>
    obtain ⟨g, rfl⟩ : ∃ g, f = g + 1 := ⟨f - 1, by simp [valueOnto, charsOnto] at hfuel; omega⟩
    rfl
  | .array (@ItemsReadAs.cons v w vs ws hfirst hothers) =>
    have hv := l.length_valueOnto (l.itemsOnto (l.gap depth ++ ']' :: rest) (depth + 1) vs) (depth + 1) v
    have hvs := l.length_itemsOnto (l.gap depth ++ ']' :: rest) (depth + 1) vs
    simp only [valueOnto, List.length_cons, List.length_append] at hfuel hvs
    obtain ⟨g, rfl⟩ : ∃ g, f = g + 1 := ⟨f - 1, by omega⟩
    have hclosed := l.closed_itemsOnto (l.closed_end (.inr (.inl rfl)) depth rest) (depth + 1) vs
    have hscan := scanValue_laid hfirst g (depth + 1) _ hclosed (by omega)
    have hmore := scanItems_laid hothers g depth (depth + 1) rest (by omega)
    obtain ⟨c, cs, hc, hhead⟩ := l.valueOnto_head hfirst
      (l.itemsOnto (l.gap depth ++ ']' :: rest) (depth + 1) vs) (depth + 1)
    rw [hc] at hscan
    rw [valueOnto, hc, scanValue_items (l.blank_gap _) hhead hscan hmore, ofJson, ofItems]
  | .object .nil =>
    obtain ⟨g, rfl⟩ : ∃ g, f = g + 1 := ⟨f - 1, by simp [valueOnto, charsOnto] at hfuel; omega⟩
    rfl
  | .object (@FieldsReadAs.cons k v w fields others hfirst hothers) =>
    have hv := l.length_valueOnto (l.fieldsOnto (l.gap depth ++ '}' :: rest) (depth + 1) fields)
      (depth + 1) v
    have hfields := l.length_fieldsOnto (l.gap depth ++ '}' :: rest) (depth + 1) fields
    simp only [valueOnto, List.length_cons, List.length_append] at hfuel hfields
    obtain ⟨g, rfl⟩ : ∃ g, f = g + 2 := ⟨f - 2, by omega⟩
    have hclosed := l.closed_fieldsOnto (l.closed_end (.inr (.inr rfl)) depth rest) (depth + 1) fields
    have hscan := scanValue_laid hfirst g (depth + 1) _ hclosed (by omega)
    have hmember := scanMember_named l.blank_colon k hscan (by omega)
    have hmore := scanMembers_laid hothers (g + 1) depth (depth + 1) rest (by omega)
    rw [valueOnto, scanValue_members (l.blank_gap _) hmember hmore, ofJson, ofFields]

theorem scanItems_laid {vs ws : List Json} (h : ItemsReadAs vs ws) (fuel outer depth : Nat)
    (rest : List Char)
    (hfuel : 3 * (l.itemsOnto (l.gap outer ++ ']' :: rest) depth vs).length < fuel + 3 * rest.length) :
    scanItems fuel false (l.itemsOnto (l.gap outer ++ ']' :: rest) depth vs) =
      (ofItems ws, none, rest) := by
  have hlength := l.length_itemsOnto (l.gap outer ++ ']' :: rest) depth vs
  rw [List.length_append, List.length_cons] at hlength
  obtain ⟨f, rfl⟩ := fuel_succ hfuel (by omega)
  match h with
  | .nil => exact scanItems_end (l.blank_gap outer) f false rest
  | @ItemsReadAs.cons v w vs ws hfirst hothers =>
    have hv := l.length_valueOnto (l.itemsOnto (l.gap outer ++ ']' :: rest) depth vs) depth v
    have hvs := l.length_itemsOnto (l.gap outer ++ ']' :: rest) depth vs
    simp only [itemsOnto, List.length_cons, List.length_append] at hfuel hvs
    have hclosed := l.closed_itemsOnto (l.closed_end (.inr (.inl rfl)) outer rest) depth vs
    have hscan := scanValue_laid hfirst f depth _ hclosed (by omega)
    have hmore := scanItems_laid hothers f outer depth rest (by omega)
    obtain ⟨c, cs, hc, hhead⟩ := l.valueOnto_head hfirst
      (l.itemsOnto (l.gap outer ++ ']' :: rest) depth vs) depth
    rw [hc] at hscan
    rw [itemsOnto, hc, scanItems_next (l.blank_gap depth) hhead hscan, hmore, ofItems]

theorem scanMembers_laid {fields others : List (String × Json)} (h : FieldsReadAs fields others)
    (fuel outer depth : Nat) (rest : List Char)
    (hfuel : 3 * (l.fieldsOnto (l.gap outer ++ '}' :: rest) depth fields).length <
      fuel + 3 * rest.length) :
    scanMembers fuel false (l.fieldsOnto (l.gap outer ++ '}' :: rest) depth fields) =
      (ofFields others, none, rest) := by
  have hlength := l.length_fieldsOnto (l.gap outer ++ '}' :: rest) depth fields
  rw [List.length_append, List.length_cons] at hlength
  obtain ⟨f, rfl⟩ := fuel_succ hfuel (by omega)
  match h with
  | .nil => exact scanMembers_end (l.blank_gap outer) f false rest
  | @FieldsReadAs.cons k v w fields others hfirst hothers =>
    have hv := l.length_valueOnto (l.fieldsOnto (l.gap outer ++ '}' :: rest) depth fields) depth v
    have hfields := l.length_fieldsOnto (l.gap outer ++ '}' :: rest) depth fields
    simp only [fieldsOnto, List.length_cons, List.length_append] at hfuel hfields
    obtain ⟨g, rfl⟩ : ∃ g, f = g + 1 := ⟨f - 1, by omega⟩
    have hclosed := l.closed_fieldsOnto (l.closed_end (.inr (.inr rfl)) outer rest) depth fields
    have hscan := scanValue_laid hfirst g depth _ hclosed (by omega)
    have hmember := scanMember_named l.blank_colon k hscan (by omega)
    have hmore := scanMembers_laid hothers (g + 1) outer depth rest (by omega)
    rw [fieldsOnto, scanMembers_next (l.blank_gap depth) hmember, hmore, ofFields]
end

/-- What a reader makes of a value, it makes of any text that is read as the value, in any layout. -/
theorem ofText_readAs {α : Type} (r : Reader α) {j k : Json} (h : j.ReadAs k) :
    r.ofText (String.ofList (l.valueOnto [] 0 j)) =
      (r Reader.fullRoom (ofJson k)).mapError Mishap.flaw := by
  have hscan := l.scanValue_laid h (3 * (l.valueOnto [] 0 j).length + 3) 0 [] closed_nil (by
    rw [List.length_nil]
    omega)
  have hchars : Sketch.ofChars (l.valueOnto [] 0 j) = (ofJson k, true) := by
    unfold Sketch.ofChars
    rw [hscan]
    rfl
  unfold Reader.ofText Reader.ofChars
  rw [String.toList_ofList, hchars]
  dsimp only
  generalize r Reader.fullRoom (ofJson k) = reading
  cases reading <;> rfl

/-- What a reader makes of a value, it makes of the text of the value in any layout. -/
theorem ofText_laid {α : Type} (r : Reader α) {j : Json} (h : j.Plain) :
    r.ofText (String.ofList (l.valueOnto [] 0 j)) =
      (r Reader.fullRoom (ofJson j)).mapError Mishap.flaw :=
  l.ofText_readAs r h.readAs

end Layout

namespace Reader

theorem ofText_indented_readAs {α : Type} {j k : Json} (h : j.ReadAs k) (r : Reader α) :
    r.ofText j.indented = (r fullRoom (Sketch.ofJson k)).mapError Mishap.flaw := by
  have hread := Layout.indent.ofText_readAs r h
  rw [Layout.indent_value] at hread
  exact hread

variable {α : Type} {j : Json} (h : j.Plain)
include h

theorem ofText_text {r : Reader α} {a : α} (hr : r fullRoom (Sketch.ofJson j) = .ok a) :
    r.ofText j.text = .ok a := by
  have hread := Layout.dense.ofText_laid r h
  rw [Layout.dense_value, hr] at hread
  exact hread

theorem ofText_indented (r : Reader α) :
    r.ofText j.indented = (r fullRoom (Sketch.ofJson j)).mapError Mishap.flaw :=
  ofText_indented_readAs h.readAs r

end Reader

end FencedSessions.Json
