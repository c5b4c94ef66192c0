import SoftFork.Proofs.Json.Spelling

/-!
# Written values are read back

Every JSON value, written as text, is read as itself (`read_write`).  There is no condition:
integers of any size, strings that denote no text, and objects with repeated keys come back
as they were.

The text gives back the tokens of the value (`Proofs.Json.Spelling`), so what is left is the
builder.  It does not recurse on values.  It keeps the open brackets on a stack, and the value
that a bracket holds so far stands there last item first.  So the statement has three parts,
one for each thing that may be about to be completed: a value, with any stack below; the rest
of an array, with the items seen on top of the stack; and the rest of an object.  In the last
two the items seen, turned round, and the items still to come make up the value.
-/

namespace SoftFork
namespace Json

/-- The first item of an array is built like any other value. -/
theorem build_firstItem (v : Json) (stack : List Frame) (ts : List Token) :
    build .firstItem stack (tokens v ++ ts) =
      build .value (.array [] :: stack) (tokens v ++ ts) := by
  cases v with
  | array items => cases items <;> rfl
  | object fields => cases fields <;> rfl
  | _ => rfl

theorem build_of_isScalar (v : Json) (hv : v.IsScalar) (stack : List Frame) (ts : List Token) :
    build .value stack (tokens v ++ ts) = build (.done v) stack ts := by
  rw [tokens_of_isScalar hv, List.singleton_append, build]

mutual

/-- The tokens of a value complete the value. -/
theorem build_tokens : ∀ (v : Json) (stack : List Frame) (ts : List Token),
    build .value stack (tokens v ++ ts) = build (.done v) stack ts
  | .array [], stack, ts => by
    rw [tokens, List.cons_append, build, List.singleton_append, build]
  | .array (v :: vs), stack, ts => by
    rw [tokens, List.cons_append, build, List.append_assoc, build_firstItem,
      build_tokens v, build_moreItems vs]
    rfl
  | .object [], stack, ts => by
    rw [tokens, List.cons_append, build, List.singleton_append, build]
  | .object ((k, v) :: fs), stack, ts => by
    rw [tokens, List.cons_append, build, List.cons_append, build, List.cons_append, build,
      List.append_assoc, build_tokens v, build_moreFields fs]
    rfl
  | .null, stack, ts => build_of_isScalar (.null) trivial stack ts
  | .bool b, stack, ts => build_of_isScalar (.bool b) trivial stack ts
  | .integer n, stack, ts => build_of_isScalar (.integer n) trivial stack ts
  | .fraction, stack, ts => build_of_isScalar (.fraction) trivial stack ts
  | .string t, stack, ts => build_of_isScalar (.string t) trivial stack ts

/-- The rest of an array completes the array. -/
theorem build_moreItems : ∀ (vs : List Json) (v : Json) (seen : List Json) (stack : List Frame)
    (ts : List Token), build (.done v) (.array seen :: stack) (moreItems vs ++ ts) =
      build (.done (.array ((v :: seen).reverse ++ vs))) stack ts
  | [], v, seen, stack, ts => by
    rw [moreItems, List.singleton_append, build, List.append_nil]
  | w :: vs, v, seen, stack, ts => by
    rw [moreItems, List.cons_append, build, List.append_assoc, build_tokens w,
      build_moreItems vs w, List.reverse_cons (a := w), List.append_assoc, List.singleton_append]

/-- The rest of an object completes the object. -/
theorem build_moreFields : ∀ (fs : List (Option String × Json)) (v : Json)
    (seen : List (Option String × Json)) (k : Option String) (stack : List Frame)
    (ts : List Token), build (.done v) (.object seen k :: stack) (moreFields fs ++ ts) =
      build (.done (.object (((k, v) :: seen).reverse ++ fs))) stack ts
  | [], v, seen, k, stack, ts => by
    rw [moreFields, List.singleton_append, build, List.append_nil]
  | (l, w) :: fs, v, seen, k, stack, ts => by
    rw [moreFields, List.cons_append, build, List.cons_append, build, List.cons_append, build,
      List.append_assoc, build_tokens w, build_moreFields fs w, List.reverse_cons (a := (l, w)),
      List.append_assoc, List.singleton_append]

end

/-- What has been written is read back. -/
theorem read_write (v : Json) : read (write v) = some v := by
  have hbuild := build_tokens v [] []
  rw [List.append_nil] at hbuild
  rw [read, ofText_write, Option.bind_some, hbuild, build]

end Json
end SoftFork
