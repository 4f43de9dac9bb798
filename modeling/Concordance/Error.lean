import Concordance.Query.Error
import Concordance.Settings
/-!
What can go wrong, from reading files to reading queries.
-/
namespace Concordance

inductive FileError where
  | notFound
  | notADirectory
  | isADirectory
  | invalidUtf8
  /-- Any other reason, in the words of the system. -/
  | other (reason : String)
  deriving DecidableEq, Repr

def FileError.message : FileError → String
  | notFound => "No such file or directory (os error 2)"
  | notADirectory => "Not a directory (os error 20)"
  | isADirectory => "Is a directory (os error 21)"
  | invalidUtf8 => "stream did not contain valid UTF-8"
  | other reason => reason

inductive ErrorKind where
  | emptyCorpus
  | invalidDocId
  | query
  | settings
  | file
  deriving DecidableEq, Repr

def ErrorKind.describe : ErrorKind → String → String
  | emptyCorpus, _ => "Cannot build an index over an empty corpus"
  | invalidDocId, detail => s!"Invalid document id: {detail}"
  | query, detail => s!"Query parse error: {detail}"
  | settings, detail => s!"Invalid configuration: {detail}"
  | file, detail => s!"IO error: {detail}"

/-- Whether the user who asked is to blame, and not the collection. -/
def ErrorKind.isUserError : ErrorKind → Bool
  | query | settings => true
  | emptyCorpus | invalidDocId | file => false

/-- What can go wrong. -/
inductive Error where
  | emptyCorpus
  /-- A name that is no document id, or one that stands for a document already read. -/
  | invalidDocId (name : String)
  | query (cause : Query.Error)
  | settings (cause : Settings.Error)
  | file (cause : FileError)

namespace Error

def kind : Error → ErrorKind
  | emptyCorpus => .emptyCorpus
  | invalidDocId _ => .invalidDocId
  | query _ => .query
  | settings _ => .settings
  | file _ => .file

def detail : Error → String
  | emptyCorpus => ""
  | invalidDocId name => name
  | query cause => cause.message
  | settings cause => cause.message
  | file cause => cause.message

def message (e : Error) : String := e.kind.describe e.detail

end Error
end Concordance
