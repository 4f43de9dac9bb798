/-!
Splitting a command line into switches and words. A switch is written `--name` or `-n`; its value
follows as `--name value`, `--name=value`, `-n value`, `-nvalue` or `-n=value`. A value that is an
argument of its own does not begin with a minus sign, unless it is nothing else. Behind the
argument `--` everything is a word.
-/
namespace Concordance.Command

structure Switch where
  long : String
  short : Option Char := none
  takesValue : Bool := true
  /-- Whether the switch may be given more than once. -/
  repeatable : Bool := false

/-- Whether the argument is no word. -/
def isSwitchLike (arg : String) : Bool := arg.startsWith "-" && arg ≠ "-"

/-- The text before the first equals sign, and the text behind it, if there is one. -/
def splitEquals (text : List Char) : String × Option String :=
  (String.ofList (text.takeWhile (· ≠ '=')),
    match text.dropWhile (· ≠ '=') with
    | _ :: value => some (String.ofList value)
    | [] => none)

/-- The switch that an argument names, and the value that the argument holds. -/
def attached? (switches : List Switch) (arg : String) : Option (Switch × Option String) :=
  match arg.toList with
  | '-' :: '-' :: text =>
    let (name, value) := splitEquals text
    (switches.find? (·.long = name)).map (·, value)
  | '-' :: letter :: text => do
    let switch ← switches.find? (·.short = some letter)
    match text with
    | [] => return (switch, none)
    | '=' :: value => return (switch, some (String.ofList value))
    | value => return (switch, some (String.ofList value))
  | _ => none

/-- What has been read of a command line. -/
structure Split where
  /-- The long names of the switches given, with their values. A switch that takes none has an empty
  value. -/
  given : List (String × String) := []
  words : List String := []
  /-- A switch whose value comes next. -/
  pending : Option Switch := none
  /-- Whether everything to come is a word. -/
  onlyWords : Bool := false

namespace Split

/-- Adds a switch with its value. Only some switches may be given again. -/
def give (s : Split) (switch : Switch) (value : String) : Option Split :=
  if !switch.repeatable && s.given.any (·.1 = switch.long) then none
  else some { s with given := s.given ++ [(switch.long, value)], pending := none }

def readSwitch (s : Split) (switches : List Switch) (arg : String) : Option Split := do
  let (switch, value) ← attached? switches arg
  match switch.takesValue, value with
  | true, some value => s.give switch value
  | true, none => some { s with pending := some switch }
  | false, none => s.give switch ""
  | false, some _ => none

def values (s : Split) (name : String) : List String :=
  (s.given.filter (·.1 = name)).map (·.2)

end Split

/-- Splits a command line, or only what precedes its first word if `untilWord` holds; then what is
left is returned too. There is no result where a switch is unknown, lacks its value, has one that it
does not take, or is repeated. -/
def split (switches : List Switch) (untilWord : Bool) (s : Split) :
    List String → Option (Split × List String)
  | [] => if s.pending.isSome then none else some (s, [])
  | arg :: args =>
    match s.pending with
    | some switch =>
      if isSwitchLike arg then none
      else do split switches untilWord (← s.give switch arg) args
    | none =>
      if s.onlyWords || !isSwitchLike arg then
        if untilWord then some (s, arg :: args)
        else split switches untilWord { s with words := s.words ++ [arg] } args
      else if arg = "--" then
        if untilWord then none else split switches untilWord { s with onlyWords := true } args
      else do split switches untilWord (← s.readSwitch switches arg) args

end Concordance.Command
