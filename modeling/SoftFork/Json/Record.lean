import SoftFork.Json.Text

/-!
# Records in JSON

Every record of this library has one JSON form: an object with one field for
each of its parts.  This module holds what those forms have in common, so that a
record's own module lists its field names and nothing else.

## What a reader accepts

`Json.record names` finds the declared fields of a value.  Fields that are not
declared are ignored, whatever they hold.  A declared field may be missing, and
whether that matters is decided field by field: `required` refuses, `orElse`
supplies a default.  A declared field that stands twice is refused, since
neither of the two could claim to be meant, and so is a key that denotes no
text.

A record may also be written as an array of its fields in their declared order.
Fields missing at the end are then missing, and further items are refused.

## The class

`Form α` pairs the writer of a type with its reader.  Nothing in the class says
that the two belong together; that is a theorem about each instance.
-/

namespace SoftFork

/-- A type with a JSON form: how its values are written, and how they are read. -/
class Form (α : Type) where
  /-- The JSON value that stands for `a`. -/
  encode : α → Json
  /-- The value that a JSON value stands for, if it stands for one. -/
  decode : Json → Option α

namespace Form

/-- A value written as JSON text. -/
def write {α : Type} [Form α] (a : α) : String :=
  String.ofList (Json.write (encode a))

/-- The value that a JSON text spells. -/
def read {α : Type} [Form α] (s : String) : Option α :=
  (Json.read s.toList).bind decode

/-! ## Plain values -/

instance : Form Bool where
  encode := .bool
  decode := Json.bool?

instance : Form String where
  encode := .text
  decode := Json.text?

instance : Form UInt8 where
  encode n := .nat n.toNat
  decode v := (v.natUpTo? 0xFF).map UInt8.ofNat

instance : Form UInt32 where
  encode n := .nat n.toNat
  decode v := (v.natUpTo? 0xFFFFFFFF).map UInt32.ofNat

instance : Form UInt64 where
  encode n := .nat n.toNat
  decode v := (v.natUpTo? 0xFFFFFFFFFFFFFFFF).map UInt64.ofNat

instance {α : Type} [Form α] : Form (List α) where
  encode xs := .array (xs.map encode)
  decode v := v.items?.bind fun items => items.mapM decode

end Form

namespace Json

/-! ## Fields -/

/-- The declared fields of an object: for each name the value that stands there,
or nothing.  Refused when a declared name stands twice or a key is no text. -/
def objectFields (names : List String) (entries : List (Option String × Json)) :
    Option (List (Option Json)) :=
  if entries.any (fun e => e.1.isNone) then none
  else names.mapM fun name =>
    match entries.filter (fun e => e.1 == some name) with
    | [] => some none
    | [e] => some (some e.2)
    | _ => none

/-- The declared fields of an array that lists them in order. -/
def arrayFields (names : List String) (items : List Json) : Option (List (Option Json)) :=
  if names.length < items.length then none
  else some (items.map some ++ List.replicate (names.length - items.length) none)

/-- The declared fields of a record: one entry for each name, empty where the
field is missing. -/
def record (names : List String) : Json → Option (List (Option Json))
  | .object entries => objectFields names entries
  | .array items => arrayFields names items
  | _ => none

/-- The value of a field that has to be there. -/
def required {α : Type} [Form α] (field : Option Json) : Option α :=
  field.bind Form.decode

/-- The value of a field that may be missing. -/
def orElse {α : Type} [Form α] (default : α) : Option Json → Option α
  | none => some default
  | some v => Form.decode v

/-- The value of a field that may be missing and may be `null`, both meaning that
there is none. -/
def optional {α : Type} [Form α] : Option Json → Option (Option α)
  | none => some none
  | some .null => some none
  | some v => (Form.decode v).map some

/-- The number of a field that has to be there, of at most `limit`. -/
def requiredNat (limit : Nat) (field : Option Json) : Option Nat :=
  field.bind (natUpTo? limit)

/-! ## Names of choices -/

/-- The name by which a choice is made: a string, or an object whose only field
has that name and holds `null`. -/
def choice? : Json → Option String
  | .string name => name
  | .object [(name, .null)] => name
  | _ => none

end Json
end SoftFork
