import FencedSessions.Json.Reader

/-! Readers of records. A record is written as an object, whose unknown members are passed over
and whose known ones come once and in any order, or as an array of its fields in order. -/

namespace FencedSessions.Json

open Reading

/-- Where the fields of a record stand: the place and the value of a field, found by position
and by name, and what the absence of a field is, if it has no default. -/
structure Source where
  positional : Bool
  find : (index : Nat) → (name : String) → Option (Nat × Sketch)
  absence : Mishap

/-- The fields of a record and how they are read. `index` is the position of the first one. -/
structure Record (α : Type) where
  names : List String
  read : (room : Nat) → (index : Nat) → Source → Reading α

namespace Record

def build {α : Type} (a : α) : Record α := ⟨[], fun _ _ _ => .ok a⟩

/-- One more field. -/
def andField {α β : Type} (f : Record (α → β)) (a : Record α) : Record β :=
  ⟨f.names ++ a.names, fun room i src =>
    both (f.read room i src) (a.read room (i + f.names.length) src)⟩

/-- A field that may be absent. -/
def fieldOr {α : Type} (name : String) (r : Reader α) (absent : α) : Record α :=
  ⟨[name], fun room i src =>
    match src.find i name with
    | some (place, s) => inPart place (inPart 0 (r room s))
    | none => .ok absent⟩

/-- A field that must be there. -/
def field {α : Type} (name : String) (r : Reader α) : Record α :=
  ⟨[name], fun room i src =>
    match src.find i name with
    | some (place, s) => inPart place (inPart 0 (r room s))
    | none => .error src.absence⟩

/-- A field that may hold `null`, or be absent from an object. -/
def optional {α : Type} (name : String) (r : Reader α) : Record (Option α) :=
  ⟨[name], fun room i src =>
    match src.find i name with
    | some (place, s) => inPart place (inPart 0 (r.option room s))
    | none => if src.positional then .error src.absence else .ok none⟩

/-- The first member of a name, with its place. -/
def findMember (name : String) : (i : Nat) → List (Sketch × Sketch) → Option (Nat × Sketch)
  | _, [] => none
  | i, (k, v) :: ms =>
    match k.name with
    | .ok k => if k = name then some (i, v) else findMember name (i + 1) ms
    | .error _ => findMember name (i + 1) ms

/-- What is wrong with the members besides the values of the known ones: a bad name, a known name
that comes again, or an unknown member that cannot be passed over. -/
def survey (names : List String) : (i : Nat) → (seen : List String) → List (Sketch × Sketch) →
    Reading Unit
  | _, _, [] => .ok ()
  | i, seen, (k, v) :: ms =>
    match k.name with
    | .error f => .error ⟨[i], f⟩
    | .ok k =>
      if names.contains k then
        if seen.contains k then .error ⟨[i], .misfit⟩
        else survey names (i + 1) (k :: seen) ms
      else match v.skipFlaw with
        | some f => .error ⟨[i], f⟩
        | none => survey names (i + 1) seen ms

def members {α : Type} (r : Record α) (room : Nat) (ms : List (Sketch × Sketch))
    (ending : Option Flaw) : Reading α :=
  let src : Source := ⟨false, fun _ name => findMember name 0 ms, ⟨[ms.length + 1], .misfit⟩⟩
  both (both ((r.read room 0 src).map fun a _ _ => a) (survey r.names 0 [] ms))
    (Reader.closing ms.length ending)

def items {α : Type} (r : Record α) (room : Nat) (vs : List Sketch) (ending : Option Flaw) :
    Reading α :=
  let n := r.names.length
  let src : Source :=
    ⟨true, fun i _ => vs[i]?.map fun v => (i, v), ⟨[vs.length], ending.getD .misfit⟩⟩
  let surplus : Reading Unit :=
    if n < vs.length then .error ⟨[n], .malformed⟩ else Reader.closing vs.length ending
  both ((r.read room 0 src).map fun a _ => a) surplus

/-- The reader of a record. -/
def reader {α : Type} (r : Record α) : Reader α := fun room s =>
  match s with
  | .object ms ending =>
    if room ≤ 1 then fail .malformed else r.members (room - 1) ms ending
  | .array vs ending =>
    if room ≤ 1 then fail .malformed else r.items (room - 1) vs ending
  | s => fail s.unwanted

/-- The reader of a record that passes over the items beyond its last field. -/
def openReader {α : Type} (r : Record α) : Reader α := fun room s =>
  match s with
  | .array vs ending => r.reader room (.array (vs.take r.names.length) ending)
  | s => r.reader room s

end Record

/-- What is wrong with the members of a tagged record as far as it shows before its tag is known:
all values are read in full. -/
def Reader.surveyTagged {α : Type} (tag : String) (named : String → Option α) (room : Nat) :
    (i : Nat) → (seen : Bool) → List (Sketch × Sketch) → Reading Unit
  | _, _, [] => .ok ()
  | i, seen, (k, v) :: ms =>
    match k.name with
    | .error f => .error ⟨[i], f⟩
    | .ok k =>
      let rest (seen : Bool) (here : Reading Unit) :=
        match here with
        | .ok _ => Reader.surveyTagged tag named room (i + 1) seen ms
        | .error e => .error ⟨[i], e.flaw⟩
      if k = tag then
        if seen then .error ⟨[i], .misfit⟩
        else rest true ((Reader.string.filterMap named room v).map fun _ => ())
      else rest seen ((Reader.any room v).map fun _ => ())

/-- One of several records in an object that names its kind in the field `tag`, or in an array that
starts with the kind. A record without fields stands for its kind alone. -/
def Reader.tagged {α : Type} (tag : String) (named : String → Option (Record α)) : Reader α :=
  fun room s =>
    let inner (r : Reading α) : Reading α := r.mapError fun _ => ⟨[], .misfit⟩
    match s with
    | .object ms ending =>
      if room ≤ 1 then fail .malformed
      else do
        Reader.surveyTagged tag named (room - 1) 0 false ms
        Reader.closing ms.length ending
        let kind := (Record.findMember tag 0 ms).bind fun (_, v) =>
          (Reader.string.filterMap named room v).toOption
        match kind with
        | none => fail .misfit
        | some r =>
          let others := ms.filter fun (k, _) => match k.name with
            | .ok k => k ≠ tag
            | .error _ => true
          inner (r.members (Reader.fullRoom + room) others none)
    | .array vs ending =>
      if room ≤ 1 then fail .malformed
      else match vs with
        | [] => match ending with
          | some f => fail f
          | none => fail .misfit
        | v :: vs =>
          match Reader.string.filterMap named room v with
          | .error e => .error e
          | .ok r => do
            let _ ← Reader.items Reader.any (room - 1) 1 vs
            Reader.closing (vs.length + 1) ending
            inner (r.items (Reader.fullRoom + room) vs none)
    | s => fail s.unwanted

end FencedSessions.Json
