import Concordance.Json.Token
/-!
From JSON tokens to values. The tokens are read once, from left to right; the arrays and objects
around the place at hand wait on a stack.
-/
namespace Concordance.Json

/-- An array or object of which not all has been read, its parts the latest first. -/
inductive Frame where
  | array (items : List Value)
  /-- The value of the field `name` comes next. -/
  | object (fields : List (Text × Value)) (name : Text)
  deriving Repr

/-- What may come next. -/
inductive Expect where
  | value
  /-- A value, or the end of an empty array. -/
  | firstItem
  /-- The name of a field. -/
  | name (fields : List (Text × Value))
  /-- The colon behind the name of a field. -/
  | colon (fields : List (Text × Value)) (name : Text)
  /-- A comma, or the end of the innermost array or object. -/
  | separator
  /-- Nothing: this is the whole value. -/
  | nothing (value : Value)
  deriving Repr

/-- The state of the reader. -/
structure State where
  expect : Expect := .value
  frames : List Frame := []
  deriving Repr

namespace State

/-- The state once a value is complete. -/
def deliver (value : Value) : List Frame → State
  | [] => ⟨.nothing value, []⟩
  | .array items :: frames => ⟨.separator, .array (value :: items) :: frames⟩
  | .object fields name :: frames => ⟨.separator, .object ((name, value) :: fields) name :: frames⟩

/-- Reads the first token of a value. -/
def begin (frames : List Frame) : Token → Option State
  | .scalar value => some (deliver value frames)
  | .openArray => some ⟨.firstItem, .array [] :: frames⟩
  | .openObject => some ⟨.name [], frames⟩
  | _ => none

def step (s : State) (token : Token) : Option State :=
  match s.expect, token, s.frames with
  | .value, token, frames => begin frames token
  | .firstItem, .closeArray, .array _ :: frames => some (deliver (.array []) frames)
  | .firstItem, token, frames => begin frames token
  | .name [], .closeObject, frames => some (deliver (.object []) frames)
  | .name fields, .scalar (.string name), frames => some ⟨.colon fields name, frames⟩
  | .colon fields name, .colon, frames => some ⟨.value, .object fields name :: frames⟩
  | .separator, .comma, .array items :: frames => some ⟨.value, .array items :: frames⟩
  | .separator, .comma, .object fields _ :: frames => some ⟨.name fields, frames⟩
  | .separator, .closeArray, .array items :: frames =>
    some (deliver (.array items.reverse) frames)
  | .separator, .closeObject, .object fields _ :: frames =>
    some (deliver (.object fields.reverse) frames)
  | _, _, _ => none

end State

/-- Reads a JSON text, which holds one value and nothing else but spaces. -/
def read? (text : String) : Option Value := do
  let state ← (← tokens? text.toList).foldlM State.step {}
  match state.expect with
  | .nothing value => some value
  | _ => none

end Concordance.Json
