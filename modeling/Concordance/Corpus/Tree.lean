import Concordance.Error
import Concordance.Text.Bytes
import Concordance.Text.Pieces
/-!
Files and directories, and what a path names among them.
-/
namespace Concordance

/-- A file with what reading it gives, or a directory with the names of what it holds. -/
inductive Entry where
  | file (content : Except FileError ByteArray)
  | directory (entries : List (Bytes × Entry))

/-- The files that a program can see: what each path names. -/
abbrev Files := String → Except FileError Entry

def slash : UInt8 := 0x2f

def pathParts (path : Bytes) : List Bytes := pieces (· == slash) path

/-- A part of a path that stays where it is. -/
def staysPut (part : Bytes) : Bool := part == [] || part == .ofText "."

/-- A part of a path that leads out of a directory. -/
def leadsOut (part : Bytes) : Bool := part == .ofText ".."

namespace Entry

/-- What a list of path parts names, seen from `entry`, where `above` are the directories around it,
the nearest first. -/
def walk (above : List Entry) (entry : Entry) : List Bytes → Except FileError Entry
  | [] => .ok entry
  | part :: rest =>
    match entry with
    | file _ => .error .notADirectory
    | directory entries =>
      if staysPut part then entry.walk above rest
      else if leadsOut part then
        match above with
        | outer :: above => outer.walk above rest
        | [] => .error .notFound
      else
        match entries.lookup part with
        | some inner => inner.walk (entry :: above) rest
        | none => .error .notFound

/-- What a path names, seen from a directory. Nothing outside of it can be seen. -/
def files (root : Entry) : Files := fun path =>
  if path = "" || path.startsWith "/" then .error .notFound
  else root.walk [] (pathParts (.ofText path))

end Entry

/-- The files among the entries of a directory, with their names. -/
def regularFiles (entries : List (Bytes × Entry)) :
    List (Bytes × Except FileError ByteArray) :=
  entries.filterMap fun
    | (name, .file content) => some (name, content)
    | (_, .directory _) => none

namespace Files

def decode (content : Except FileError ByteArray) : Except FileError String := do
  match String.fromUTF8? (← content) with
  | some text => .ok text
  | none => .error .invalidUtf8

def readText (files : Files) (path : String) : Except FileError String := do
  match ← files path with
  | .file content => decode content
  | .directory _ => .error .isADirectory

def join (dir : String) (name : Bytes) : Bytes :=
  let above := Bytes.ofText dir
  if above.getLast? = some slash then above ++ name else above ++ slash :: name

/-- The files of a directory with their names, ascending by name. Directories inside it are left
out. -/
def list (files : Files) (dir : String) :
    Except FileError (List (Bytes × Except FileError ByteArray)) := do
  match ← files dir with
  | .file _ => .error .notADirectory
  | .directory entries => return (regularFiles entries).mergeSort fun a b => a.1 ≤ b.1

end Files
end Concordance
