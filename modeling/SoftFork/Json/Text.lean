import SoftFork.Json.Token

/-!
# JSON text

Values and texts, joined by the tokens between them.

Reading keeps its own stack.  A text may open brackets a hundred thousand deep
inside a field that nobody wants, and it is still one valid value; so the
builder `build` is a recursion on the *tokens*, with the brackets still open in
a list of frames beside it, and its depth never depends on how the text nests.
At each moment it knows what may stand next (`Stage`), and a value that has just
been completed is handed to the frame on top.

Writing lists a value's tokens and spells them one after another, without
blanks.
-/

namespace SoftFork
namespace Json

/-! ## From tokens to a value -/

/-- A bracket that is still open, with what it holds so far, last first. -/
inductive Frame where
  | array (seen : List Json)
  | object (seen : List (Option String × Json)) (key : Option String)

/-- What has to stand next. -/
inductive Stage where
  /-- A value. -/
  | value
  /-- A value, or the end of the array that has just been opened. -/
  | firstItem
  /-- A key, or the end of the object that has just been opened. -/
  | firstKey
  /-- The key of a further field. -/
  | key (seen : List (Option String × Json))
  /-- The colon after a key. -/
  | colon (seen : List (Option String × Json)) (key : Option String)
  /-- Whatever may follow the completed value. -/
  | done (v : Json)

/-- The value that the remaining tokens complete, given the brackets that are
open; nothing when a token stands where it may not. -/
def build : Stage → List Frame → List Token → Option Json
  | .done v, [], [] => some v
  | .value, stack, .scalar v :: ts => build (.done v) stack ts
  | .value, stack, .openArray :: ts => build .firstItem stack ts
  | .value, stack, .openObject :: ts => build .firstKey stack ts
  | .firstItem, stack, .closeArray :: ts => build (.done (.array [])) stack ts
  | .firstItem, stack, .scalar v :: ts => build (.done v) (.array [] :: stack) ts
  | .firstItem, stack, .openArray :: ts => build .firstItem (.array [] :: stack) ts
  | .firstItem, stack, .openObject :: ts => build .firstKey (.array [] :: stack) ts
  | .firstKey, stack, .closeObject :: ts => build (.done (.object [])) stack ts
  | .firstKey, stack, .scalar (.string k) :: ts => build (.colon [] k) stack ts
  | .key seen, stack, .scalar (.string k) :: ts => build (.colon seen k) stack ts
  | .colon seen k, stack, .colon :: ts => build .value (.object seen k :: stack) ts
  | .done v, .array seen :: stack, .comma :: ts => build .value (.array (v :: seen) :: stack) ts
  | .done v, .array seen :: stack, .closeArray :: ts =>
    build (.done (.array (v :: seen).reverse)) stack ts
  | .done v, .object seen k :: stack, .comma :: ts => build (.key ((k, v) :: seen)) stack ts
  | .done v, .object seen k :: stack, .closeObject :: ts =>
    build (.done (.object ((k, v) :: seen).reverse)) stack ts
  | _, _, _ => none

/-- The value that a text spells: exactly one, with nothing but blanks around. -/
def read (s : List Char) : Option Json :=
  (Token.ofText s).bind (build .value [])

/-! ## From a value to tokens -/

mutual

/-- The tokens of a value. -/
def tokens : Json → List Token
  | .array [] => [.openArray, .closeArray]
  | .array (v :: vs) => .openArray :: (tokens v ++ moreItems vs)
  | .object [] => [.openObject, .closeObject]
  | .object ((k, v) :: fs) =>
    .openObject :: .scalar (.string k) :: .colon :: (tokens v ++ moreFields fs)
  | v => [.scalar v]

/-- The tokens from behind an item to the end of its array. -/
def moreItems : List Json → List Token
  | [] => [.closeArray]
  | v :: vs => .comma :: (tokens v ++ moreItems vs)

/-- The tokens from behind a field to the end of its object. -/
def moreFields : List (Option String × Json) → List Token
  | [] => [.closeObject]
  | (k, v) :: fs => .comma :: .scalar (.string k) :: .colon :: (tokens v ++ moreFields fs)

end

/-- A value as text. -/
def write (v : Json) : List Char :=
  (tokens v).flatMap Token.spell

end Json
end SoftFork
