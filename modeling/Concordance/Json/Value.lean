import Concordance.Decimal.Shortest
/-!
JSON values and their text.
-/
namespace Concordance.Json

/-- The content of a JSON string. There is none where an escape names half of a surrogate pair
without the other half. -/
abbrev Text := Option String

/-- A JSON value. Numbers keep the form in which they are written, and objects the order and the
repeats of their fields. -/
inductive Value where
  | null
  | bool (b : Bool)
  | number (form : String)
  | string (text : Text)
  | array (items : List Value)
  | object (fields : List (Text × Value))
  deriving Repr

/-- The layout of doubles: a point always, and an exponent outside of 10⁻⁵ to 10¹⁶. -/
def doubles : Decimal.Layout where
  tie := .even
  positional := fun point => -5 < point && point ≤ 16
  wholeSuffix := ".0"

namespace Value

def nat (n : Nat) : Value := number (toString n)

/-- A double. JSON has no infinity and no NaN. -/
def float (x : Float) : Value := if x.isFinite then number (doubles.write x) else null

/-- A double, or null where there is none. -/
def float? : Option Float → Value
  | some x => float x
  | none => null

def text (s : String) : Value := string (some s)

def record (fields : List (String × Value)) : Value :=
  object (fields.map fun (name, value) => (some name, value))

end Value

/-! ## Writing -/

def hexDigits : List Char := "0123456789abcdef".toList

/-- A character inside a JSON string. -/
def escape (c : Char) : List Char :=
  match c with
  | '"' => ['\\', '"']
  | '\\' => ['\\', '\\']
  | '\x08' => ['\\', 'b']
  | '\x0c' => ['\\', 'f']
  | '\n' => ['\\', 'n']
  | '\r' => ['\\', 'r']
  | '\t' => ['\\', 't']
  | c =>
    if c.toNat < 32 then
      ['\\', 'u', '0', '0', hexDigits.getD (c.toNat / 16) '0', hexDigits.getD (c.toNat % 16) '0']
    else [c]

def quote (text : String) : String :=
  "\"" ++ String.ofList (text.toList.flatMap escape) ++ "\""

/-- The start of a line at this nesting. -/
def newline (depth : Nat) : String := "\n" ++ String.ofList (List.replicate (2 * depth) ' ')

/-- Parts one to a line, between brackets; nothing stands between the brackets of no parts. -/
def block (depth : Nat) (opening closing : String) (parts : List String) : String :=
  if parts.isEmpty then opening ++ closing
  else opening ++ newline (depth + 1) ++ ("," ++ newline (depth + 1)).intercalate parts ++
    newline depth ++ closing

mutual

/-- The text of a value that starts at this nesting, indented by two spaces a level. -/
def Value.pretty (depth : Nat) : Value → String
  | .null => "null"
  | .bool b => if b then "true" else "false"
  | .number form => form
  | .string text => quote (text.getD "")
  | .array items => block depth "[" "]" (prettyItems (depth + 1) items)
  | .object fields => block depth "\x7b" "\x7d" (prettyFields (depth + 1) fields)

def prettyItems (depth : Nat) : List Value → List String
  | [] => []
  | item :: items => item.pretty depth :: prettyItems depth items

def prettyFields (depth : Nat) : List (Text × Value) → List String
  | [] => []
  | (name, value) :: fields =>
    (quote (name.getD "") ++ ": " ++ value.pretty depth) :: prettyFields depth fields

end

end Concordance.Json
