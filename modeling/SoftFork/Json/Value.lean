/-!
# JSON values

The settings file, the records shown to operators and the warnings all travel
as JSON, so the value type keeps exactly what those readers can tell apart and
nothing more.

* A number is either an integer, of any size, or it is *not an integer*, and
  then no field of any record here wants it, so its value is dropped.  How it is
  spelled decides: `1.0` and `1e2` are not integers.
* A string usually denotes text.  It denotes none when its escapes leave a
  surrogate without a partner; such a string may stand where it is ignored, and
  nowhere else.
* An object keeps its fields in order and keeps every repetition, because
  whether a repeated field is an error is for the reader of the record to say.
-/

namespace SoftFork

/-- A JSON value. -/
inductive Json where
  | null
  | bool (b : Bool)
  | integer (n : Int)
  | fraction
  | string (text : Option String)
  | array (items : List Json)
  | object (fields : List (Option String × Json))
  deriving Inhabited, BEq

namespace Json

/-- The string value of a text. -/
def text (s : String) : Json :=
  .string (some s)

/-- The integer value of a natural number. -/
def nat (n : Nat) : Json :=
  .integer (Int.ofNat n)

/-- An object from its fields, in the order given. -/
def fields (entries : List (String × Json)) : Json :=
  .object (entries.map fun e => (some e.1, e.2))

/-- The integer, if the value is one. -/
def int? : Json → Option Int
  | .integer n => some n
  | _ => none

/-- The natural number of at most `limit`, if the value is one. -/
def natUpTo? (limit : Nat) : Json → Option Nat
  | .integer (.ofNat n) => if n ≤ limit then some n else none
  | _ => none

/-- The truth value, if the value is one. -/
def bool? : Json → Option Bool
  | .bool b => some b
  | _ => none

/-- The text, if the value is a string that denotes one. -/
def text? : Json → Option String
  | .string t => t
  | _ => none

/-- The items, if the value is an array. -/
def items? : Json → Option (List Json)
  | .array items => some items
  | _ => none

@[simp] theorem text?_text (s : String) : (text s).text? = some s := rfl

@[simp] theorem bool?_bool (b : Bool) : (Json.bool b).bool? = some b := rfl

theorem natUpTo?_nat {limit n : Nat} (h : n ≤ limit) : (nat n).natUpTo? limit = some n :=
  if_pos h

end Json
end SoftFork
