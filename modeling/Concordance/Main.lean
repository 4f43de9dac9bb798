import Concordance.Command.Run
/-!
The program. It reads the files that its arguments name, and leaves all else to
`Concordance.Command.run`.
-/
namespace Concordance

/-- Why the system refuses to read. -/
def FileError.ofSystem : IO.Error → FileError
  | .noFileOrDirectory .. => .notFound
  | .permissionDenied _ code details => .other s!"{details} (os error {code})"
  | e => .other (toString e)

def readFile (path : String) : IO (Except FileError ByteArray) := do
  try return .ok (← IO.FS.readBinFile path)
  catch e => return .error (.ofSystem e)

/-- Reads a file, or a directory with the files in it. Directories inside it are left empty. A file
in it that cannot be read is a file of it nevertheless. -/
def readEntry (path : String) : IO (Except FileError Entry) := do
  try
    let place ← IO.FS.realPath path
    if ← place.isDir then
      let entries ← (← place.readDir).toList.mapM fun entry => do
        match (← entry.path.symlinkMetadata).type with
        | .file => return (.ofText entry.fileName, Entry.file (← readFile entry.path.toString))
        | _ => return (.ofText entry.fileName, Entry.directory [])
      return .ok (.directory entries)
    else if path.endsWith "/" then return .error .notADirectory
    else return .ok (.file (← readFile place.toString))
  catch e => return .error (.ofSystem e)

def Command.Arguments.paths (a : Command.Arguments) : List String :=
  match a.task with
  | .search _ | .rank .. => [a.corpus]
  | .evaluate queries judgements .. => [a.corpus, queries, judgements]

def readEnvironment : IO Command.Environment := do
  let names := ["CORPUS", "KGRAM_SIZE", "MIN_RESULTS", "SATURATION", "JSON", "QUERIES", "QRELS",
    "TOP_K"].map ("BOOLSEARCH_" ++ ·)
  names.filterMapM fun name => return (← IO.getEnv name).map (name, ·)

/-- No request for memory is larger than the addresses of a program. -/
def hostMachine : Command.Machine where
  memory := ⟨1 <<< 47⟩
  order := .byTerm

def usageText : String :=
  "usage: [--corpus DIR] [-k N] [-r N] [--saturation X] [--json] TASK\n" ++
  "tasks: search QUERY | rank QUERY [--top-k N] |\n" ++
  "       evaluate --queries DIR --qrels FILE [--top-k N] [--cutoffs N,...]"

end Concordance

open Concordance in
def main (args : List String) : IO UInt32 := do
  let env ← readEnvironment
  let paths := ((Command.Arguments.ofArgs? env args).map (·.paths)).getD []
  let entries ← paths.mapM fun path => return (path, ← readEntry path)
  let files : Files := fun path => (entries.lookup path).getD (.error .notFound)
  let outcome := Command.run files hostMachine env args
  match outcome with
  | .usage => IO.eprintln usageText
  | .failed failure => IO.eprintln s!"Error: {failure.message}"
  | .printed output => IO.print output
  return outcome.exitCode.toUInt32
