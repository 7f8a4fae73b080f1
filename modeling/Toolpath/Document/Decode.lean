import Toolpath.Decimal.Reading
import Toolpath.Document.DecodeError
import Toolpath.Measure.Amount.Literal

/-!
Typed readings of document values. A record is read field by field, and of several errors the one
that stands first in the document is reported.
-/
namespace Toolpath

/-- Where a value comes from. -/
inductive Source where
  /-- A JSON text, in which `room` more levels may be nested. -/
  | text (room : Nat)
  /-- A JSON value that was first taken as a whole and is within the limits. -/
  | whole
  /-- A TOML table. -/
  | table
  deriving Repr, DecidableEq

abbrev Decoder (α : Type) := Source → Value → Except DecodeError α

namespace Source

/-- A JSON text may nest 127 levels. -/
def json : Source := .text 127

/-- The source of the parts of an array or object. -/
def enter : Source → Except DecodeError Source
  | .text 0 => .error .malformed
  | .text (room + 1) => .ok (.text room)
  | s => .ok s

/-- Whether a value may be taken as a whole. -/
def admits (s : Source) (v : Value) : Bool :=
  match s with
  | .text room => v.depth ≤ room && v.isSound
  | _ => true

/-- The error for a value of another type. A number beyond the range and a string with a defect
count as malformed. -/
def mismatch (s : Source) (v : Value) (expected : String) : DecodeError :=
  match s, v with
  | .text _, .float x => if x.isFinite then .invalidType v expected else .malformed
  | .text _, .defect _ => .malformed
  | _, _ => .invalidType v expected

end Source

namespace Decode

def float : Decoder Float := fun src v =>
  match v with
  | .int n => .ok (Decimal.toFloat (n < 0) ⟨n.natAbs, 0⟩)
  | .float x => if src.admits v then .ok x else .error .malformed
  | v => .error (src.mismatch v "f64")

def index : Decoder Nat := fun src v =>
  match v with
  | .int n => if 0 ≤ n then .ok n.toNat else .error (.invalidValue v "usize")
  | v => .error (src.mismatch v "usize")

def string : Decoder String := fun src v =>
  match v with
  | .str s => .ok s
  | v => .error (src.mismatch v "a string")

def bool : Decoder Bool := fun src v =>
  match v with
  | .bool b => .ok b
  | v => .error (src.mismatch v "a boolean")

def amount : Decoder Amount := fun src v => do
  match Amount.parse (← string src v) with
  | .ok a => .ok a
  | .error e => .error (.amount e)

/-- Nothing, or a value. -/
def option {α : Type} (d : Decoder α) : Decoder (Option α) := fun src v =>
  match v with
  | .null => .ok none
  | v => some <$> d src v

def list {α : Type} (d : Decoder α) : Decoder (List α) := fun src v =>
  match v with
  | .arr elements | .tables elements => do
    let inner ← src.enter
    elements.mapM (d inner)
  | v => .error (src.mismatch v "a sequence")

/-- Reads elements up to a set number of them. -/
def upTo {α : Type} (d : Decoder α) (src : Source) (size : Nat) (expected : String) :
    (done : Nat) → List Value → Except DecodeError (List α)
  | done, [] => if done = size then .ok [] else .error (.invalidLength done expected)
  | done, v :: r => do
    let a ← d src v
    if done < size then return a :: (← upTo d src size expected (done + 1) r)
    else .error (.invalidLength done expected)

/-- An array of a set length. -/
def tuple {α : Type} (d : Decoder α) (size : Nat) (expected : String) : Decoder (List α) :=
  fun src v =>
    match v with
    | .arr elements | .tables elements => do upTo d (← src.enter) size expected 0 elements
    | v => .error (src.mismatch v expected)

end Decode

/-- A part of a record, or an error and the place in the record where it arises. -/
def Part (α : Type) := Except (Nat × DecodeError) α

namespace Part

/-- Joins two parts. Of two errors the one that stands first counts. -/
def both {α β : Type} (f : Part (α → β)) (x : Part α) : Part β :=
  match f, x with
  | .ok g, .ok a => .ok (g a)
  | .ok _, .error e => .error e
  | .error e, .ok _ => .error e
  | .error e, .error e' => .error (if e'.1 < e.1 then e' else e)

instance : Applicative Part where
  pure a := .ok a
  seq f x := both f (x ())

end Part

/-- How a record is written. -/
inductive Shape where
  | members (m : List (String × Value))
  | elements (v : List Value)
  deriving Repr

/-- A record about to be read: its name and its number of fields. -/
structure Record where
  source : Source
  name : String
  size : Nat
  shape : Shape
  deriving Repr

namespace Record

def sizeText (n : Nat) : String := Nat.repr n ++ if n = 1 then " element" else " elements"

/-- The first member with a key, its place, and the place of the next member with that key. -/
def find? (key : String) (m : List (String × Value)) : Option (Value × Nat × Option Nat) :=
  match m.findIdx? (·.1 == key) with
  | none => none
  | some i => m[i]?.map fun (_, v) =>
      (v, i, ((m.drop (i + 1)).findIdx? (·.1 == key)).map (· + i + 1))

/-- The field with an index and a key, or `absent` where it is not written. -/
def field {α : Type} (r : Record) (i : Nat) (key : String) (d : Decoder α)
    (absent : Option α := none) : Part α :=
  match r.shape with
  | .members m =>
    match find? key m with
    | none => match absent with
      | some a => .ok a
      | none => .error (m.length, .missingField key)
    | some (v, place, again) =>
      match d r.source v, again with
      | .error e, _ => .error (place, e)
      | .ok _, some next => .error (next, .duplicateField key)
      | .ok a, none => .ok a
  | .elements vs =>
    match vs[i]? with
    | some v => match d r.source v with
      | .ok a => .ok a
      | .error e => .error (i, e)
    | none => match absent with
      | some a => .ok a
      | none => .error (i, .invalidLength i (r.name ++ " with " ++ sizeText r.size))

/-- Bare values beyond the last field. -/
def surplus (r : Record) : Option DecodeError :=
  match r.shape, r.source with
  | .elements vs, .text _ => if r.size < vs.length then some .malformed else none
  | .elements vs, .whole =>
    if r.size < vs.length then
      some (.invalidLength vs.length (sizeText r.size ++ " in sequence"))
    else none
  | _, _ => none

/-- The keys of all members, which must be free of defects. -/
def keys (r : Record) : Part Unit :=
  match r.shape with
  | .elements _ => .ok ()
  | .members m =>
    match m.findIdx? fun (_, v) => v matches .defect .member with
    | some place => .error (place, .malformed)
    | none => .ok ()

def finish {α : Type} (r : Record) (p : Part α) : Except DecodeError α :=
  match r.keys *> p, r.surplus with
  | .error (_, e), _ => .error e
  | .ok _, some e => .error e
  | .ok a, none => .ok a

end Record

namespace Decode

/-- A record, written with or without the names of its fields. A date gives none of them. -/
def record {α : Type} (name : String) (size : Nat) (parts : Record → Part α) : Decoder α :=
  fun src v =>
    match v with
    | .obj m => do
      let r : Record := ⟨← src.enter, name, size, .members m⟩
      r.finish (parts r)
    | .arr vs | .tables vs => do
      let r : Record := ⟨← src.enter, name, size, .elements vs⟩
      r.finish (parts r)
    | .moment _ => do
      let r : Record := ⟨← src.enter, name, size, .members []⟩
      r.finish (parts r)
    | v => .error (src.mismatch v name)

/-- The name of a variant; a value taken as a whole may give its place instead. -/
def variantName (names : List String) : Decoder String := fun src v =>
  match src, v with
  | _, .str s => if names.contains s then .ok s else .error (.unknownVariant s names)
  | .whole, .int n =>
    if n < 0 then .error (.invalidType v "variant identifier")
    else match names[n.toNat]? with
      | some s => .ok s
      | none =>
        .error (.invalidValue v ("variant index 0 <= i < " ++ Nat.repr names.length))
  | src, v => .error (src.mismatch v "variant identifier")

/-- Nothing, as the content of a variant that has none. -/
def unit : Decoder Unit := fun src v =>
  match src, v with
  | .table, .obj [] | .table, .arr [] | .table, .tables [] => .ok ()
  | .table, .obj _ | .table, .arr _ => .error (.variantNotEmpty false)
  | .table, .tables _ => .error (.variantNotEmpty true)
  | .table, v => .error (.variantNotATable v)
  | _, .null => .ok ()
  | .whole, .obj [] => .ok ()
  | src, v => .error (src.mismatch v "unit")

/-- One of several names, alone or as the only key of an object. -/
def choice {α : Type} (names : List (String × α)) : Decoder α := fun src v => do
  let pick (s : String) : Except DecodeError α :=
    match names.lookup s with
    | some a => .ok a
    | none => .error (.unknownVariant s (names.map (·.1)))
  match src, v with
  | _, .str s => pick s
  | .whole, .obj [] | .whole, .obj (_ :: _ :: _) => .error (.invalidValue v "map with a single key")
  | .table, .obj [] => .error (.notOneVariant true)
  | .table, .obj (_ :: _ :: _) => .error (.notOneVariant false)
  | .text _, .obj ((_, .defect .member) :: _) => .error .malformed
  | src, .obj ((k, content) :: rest) => do
    let a ← pick k
    unit src content
    if rest.isEmpty then return a else throw .malformed
  | .whole, v => .error (.invalidType v "string or map")
  | .text _, _ => .error .malformed
  | .table, _ => .error .notAVariant

/-- A value whose member `tag`, or first element, names the variant; `variants` read the rest. -/
def tagged {α : Type} (tag name : String) (variants : List (String × Decoder α)) : Decoder α :=
  fun src v => do
    let names := variants.map (·.1)
    let content (variant : String) (rest : Value) : Except DecodeError α :=
      if src.admits v then
        match variants.lookup variant with
        | some d => d .whole rest
        | none => .error (.unknownVariant variant names)
      else .error .malformed
    match v with
    | .obj m => do
      let inner ← src.enter
      let admitted (front : List (String × Value)) : Bool := front.all fun (_, v) => inner.admits v
      match Record.find? tag m with
      | some (t, place, again) => do
        if !admitted (m.take place) then throw .malformed
        let variant ← variantName names inner t
        match again with
        | some next => throw (if admitted (m.take next) then .duplicateField tag else .malformed)
        | none => content variant (.obj (m.filter (·.1 != tag)))
      | none => throw (if admitted m then .missingField tag else .malformed)
    | .arr elements | .tables elements => do
      let inner ← src.enter
      match elements with
      | t :: rest => do content (← variantName names inner t) (.arr rest)
      | [] => throw (.missingField tag)
    | v => .error (src.mismatch v name)

end Decode
end Toolpath
