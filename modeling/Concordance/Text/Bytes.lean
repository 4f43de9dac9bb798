/-!
Bytes as texts. The system names files by bytes, which need not be the encoding of a text.
-/
namespace Concordance

abbrev Bytes := List UInt8

namespace Bytes

def ofText (text : String) : Bytes := text.toUTF8.data.toList

def text? (bytes : Bytes) : Option String := String.fromUTF8? ⟨bytes.toArray⟩

/-- The bytes that may follow the first byte of a character, a range for each of them. -/
def followers (first : UInt8) : List (UInt8 × UInt8) :=
  let any : UInt8 × UInt8 := (0x80, 0xbf)
  if 0xc2 ≤ first ∧ first ≤ 0xdf then [any]
  else if first = 0xe0 then [(0xa0, 0xbf), any]
  else if first = 0xed then [(0x80, 0x9f), any]
  else if 0xe1 ≤ first ∧ first ≤ 0xef then [any, any]
  else if first = 0xf0 then [(0x90, 0xbf), any, any]
  else if 0xf1 ≤ first ∧ first ≤ 0xf3 then [any, any, any]
  else if first = 0xf4 then [(0x80, 0x8f), any, any]
  else []

/-- How many bytes lie in the ranges, one after the other. -/
def countIn : List (UInt8 × UInt8) → Bytes → Nat
  | (low, high) :: ranges, b :: bytes =>
    if low ≤ b ∧ b ≤ high then countIn ranges bytes + 1 else 0
  | _, _ => 0

/-- The bytes as a text, where a replacement character stands for what begins like a character and
does not go on like one. -/
def repaired : Bytes → String
  | [] => ""
  | first :: rest =>
    let n := countIn (followers first) rest
    ((text? (first :: rest.take n)).getD "\uFFFD") ++ repaired (rest.drop n)
termination_by bytes => bytes.length
decreasing_by simp only [List.length_drop, List.length_cons]; omega

def shown (bytes : Bytes) : String := bytes.text?.getD bytes.repaired

end Bytes
end Concordance
