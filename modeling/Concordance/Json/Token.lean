import Concordance.Json.Value
/-!
The tokens of a JSON text.
-/
namespace Concordance.Json

/-- A token: a bracket, a separator, or a value without parts. -/
inductive Token where
  | openArray
  | closeArray
  | openObject
  | closeObject
  | comma
  | colon
  | scalar (value : Value)
  deriving Repr

/-- Whether the character may stand between tokens. -/
def isSpace (c : Char) : Bool := c == ' ' || c == '\n' || c == '\t' || c == '\r'

/-! ## Strings -/

/-- An element of a string: a character, or a code of 16 bits given by an escape. -/
inductive Element where
  | char (c : Char)
  | code (n : Nat)

def hexValue? (c : Char) : Option Nat :=
  if c.isDigit then some (c.toNat - '0'.toNat)
  else if 'a' ≤ c ∧ c ≤ 'f' then some (c.toNat - 'a'.toNat + 10)
  else if 'A' ≤ c ∧ c ≤ 'F' then some (c.toNat - 'A'.toNat + 10)
  else none

def hexCode? (a b c d : Char) : Option Nat := do
  return (((← hexValue? a) * 16 + (← hexValue? b)) * 16 + (← hexValue? c)) * 16 + (← hexValue? d)

/-- The character that a single letter behind a backslash stands for. -/
def unescape? : Char → Option Char
  | '"' => some '"'
  | '\\' => some '\\'
  | '/' => some '/'
  | 'b' => some '\x08'
  | 'f' => some '\x0c'
  | 'n' => some '\n'
  | 'r' => some '\r'
  | 't' => some '\t'
  | _ => none

/-- The elements of a string up to its closing quote, and how many characters that is with the
quote. -/
def elements? : List Char → Option (List Element × Nat)
  | [] => none
  | '"' :: _ => some ([], 1)
  | '\\' :: 'u' :: a :: b :: c :: d :: rest => do
    let n ← hexCode? a b c d
    let (es, size) ← elements? rest
    return (.code n :: es, size + 6)
  | '\\' :: c :: rest => do
    let c ← unescape? c
    let (es, size) ← elements? rest
    return (.char c :: es, size + 2)
  | c :: rest =>
    if c.toNat < 32 || c == '\\' then none
    else do
      let (es, size) ← elements? rest
      return (.char c :: es, size + 1)

/-- The characters of a string. Two codes that are a surrogate pair are one character. -/
def characters? : List Element → Option (List Char)
  | [] => some []
  | .char c :: es => (characters? es).map (c :: ·)
  | .code high :: .code low :: es =>
    if 0xd800 ≤ high ∧ high < 0xdc00 then
      if 0xdc00 ≤ low ∧ low < 0xe000 then
        (characters? es).map (Char.ofNat (0x10000 + (high - 0xd800) * 0x400 + (low - 0xdc00)) :: ·)
      else none
    else if 0xdc00 ≤ high ∧ high < 0xe000 then none
    else (characters? (.code low :: es)).map (Char.ofNat high :: ·)
  | .code n :: es =>
    if 0xd800 ≤ n ∧ n < 0xe000 then none else (characters? es).map (Char.ofNat n :: ·)

/-! ## Numbers and words -/

/-- Whether a number can go on with the character. -/
def isNumberChar (c : Char) : Bool :=
  c.isDigit || c == '-' || c == '+' || c == '.' || c == 'e' || c == 'E'

/-- Whether the text is one or more digits. -/
def isDigits (text : List Char) : Bool := !text.isEmpty && text.all Char.isDigit

structure Number where
  negative : Bool
  whole : List Char
  /-- The digits after the point, none without a point. -/
  fraction : List Char
  /-- Whether the exponent is negative, and its digits. -/
  exponent : Option (Bool × List Char)
  /-- Whether there is neither a point nor an exponent. -/
  integral : Bool

def exponent? : List Char → Option (Option (Bool × List Char))
  | [] => some none
  | e :: rest =>
    let (negative, digits) := match rest with
      | '-' :: digits => (true, digits)
      | '+' :: digits => (false, digits)
      | digits => (false, digits)
    if (e == 'e' || e == 'E') && isDigits digits then some (some (negative, digits)) else none

/-- The parts of a written number. A zero in front of other digits is not allowed. -/
def Number.ofForm? (form : String) : Option Number := do
  let (negative, text) := match form.toList with
    | '-' :: text => (true, text)
    | text => (false, text)
  let whole := text.takeWhile Char.isDigit
  if whole.isEmpty || (whole.headD ' ' == '0' && 1 < whole.length) then none
  match text.dropWhile Char.isDigit with
  | '.' :: rest =>
    let fraction := rest.takeWhile Char.isDigit
    if fraction.isEmpty then none
    let exponent ← exponent? (rest.dropWhile Char.isDigit)
    return { negative, whole, fraction, exponent, integral := false }
  | rest =>
    let exponent ← exponent? rest
    return { negative, whole, fraction := [], exponent, integral := exponent.isNone }

/-- The value that a word stands for. -/
def word? : String → Option Value
  | "null" => some .null
  | "true" => some (.bool true)
  | "false" => some (.bool false)
  | _ => none

/-! ## All tokens -/

/-- The token that begins with `c`, and how many characters of the text behind `c` it takes. -/
def token? (c : Char) (rest : List Char) : Option (Token × Nat) :=
  match c with
  | '[' => some (.openArray, 0)
  | ']' => some (.closeArray, 0)
  | '\x7b' => some (.openObject, 0)
  | '\x7d' => some (.closeObject, 0)
  | ',' => some (.comma, 0)
  | ':' => some (.colon, 0)
  | '"' => do
    let (es, size) ← elements? rest
    return (.scalar (.string ((characters? es).map String.ofList)), size)
  | c =>
    if isNumberChar c then do
      let more := rest.takeWhile isNumberChar
      let form := String.ofList (c :: more)
      let _ ← Number.ofForm? form
      return (.scalar (.number form), more.length)
    else do
      let more := rest.takeWhile Char.isAlpha
      return (.scalar (← word? (String.ofList (c :: more))), more.length)

/-- The tokens of a text. -/
def tokens? : List Char → Option (List Token)
  | [] => some []
  | c :: rest =>
    if isSpace c then tokens? rest
    else do
      let (t, size) ← token? c rest
      let ts ← tokens? (rest.drop size)
      return t :: ts
termination_by text => text.length

end Concordance.Json
