import Concordance.Json.Decode
import Concordance.Query.Node
/-!
Query nodes written as JSON. A node is a record of its kind and its negation, which may be missing;
a kind is an object with one field, named for the kind.
-/
namespace Concordance.Query

open Json (Value)

/-- A record of the two words and the distance of a proximity. -/
def proximityOfJson? (value : Value) : Option Leaf := do
  match ← value.fields? ["left", "right", "k"] with
  | [some left, some right, some k] =>
    return .proximity (← left.text?) (← right.text?) (.ofNat (← k.natBelow? UInt32.size))
  | _ => none

/-- A node, where arrays and objects may be nested at most `depth` deep. -/
def Node.ofJson? (depth : Nat) (value : Value) : Option Node :=
  match depth with
  | 0 | 1 => none
  | inner + 2 => do
    let (kind, negated) ← match ← value.fields? ["kind", "negated"] with
      | [some kind, some negated] => (negated.bool?).map (kind, ·)
      | [some kind, none] => some (kind, false)
      | _ => none
    match kind with
    | .object [(some "Term", word)] => return .leaf negated (.term (← word.text?))
    | .object [(some name, content)] =>
      match inner with
      | 0 => none
      | inner + 1 =>
        match name, content with
        | "Phrase", .array words => return .leaf negated (.phrase (← words.mapM Value.text?))
        | "Proximity", content => return .leaf negated (← proximityOfJson? content)
        | "Or", .array nodes => return .or negated (← nodes.mapM (ofJson? inner))
        | "Group", .array nodes => return .group negated (← nodes.mapM (ofJson? inner))
        | _, _ => none
    | _ => none

/-- How deep arrays and objects may be nested. -/
def maxDepth : Nat := 127

def Node.readJson? (text : String) : Option Node := do
  Node.ofJson? maxDepth (← Json.read? text)

end Concordance.Query
