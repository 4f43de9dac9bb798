import Concordance.Corpus.Tree
import Concordance.Evaluation.Judgements
import Concordance.Index.Builder
/-!
Loading a corpus: a directory with one file for each document, named by the id of the document.
-/
namespace Concordance

/-- The name of the file that a path names: its last part. -/
def fileName? (path : Bytes) : Option Bytes :=
  (((pathParts path).filter (!staysPut ·)).getLast?).filter (!leadsOut ·)

/-- The id of the document that a path names: the name of its file, read as a number. -/
def docIdOfPath (path : Bytes) : Except Error DocId :=
  match (fileName? path).bind Bytes.text? with
  | none => .error (.invalidDocId path.shown)
  | some name =>
    match docId? name with
    | some doc => .ok doc
    | none => .error (.invalidDocId name)

/-- A file that holds a document, with what reading it gives. -/
structure DocFile where
  path : Bytes
  content : Except FileError ByteArray

abbrev DocFiles := Std.TreeMap DocId DocFile

namespace Files

/-- Adds a document. No two documents have the same id. What the file holds is not looked at. -/
def addDocFile (documents : DocFiles) (file : DocFile) : Except Error DocFiles := do
  let doc ← docIdOfPath file.path
  match documents[doc]? with
  | some other => .error (.invalidDocId s!"{doc} (also used by {other.path.shown})")
  | none => return documents.insert doc file

/-- A file found in a directory, as one that holds a document. -/
def docFile (dir : String) (found : Bytes × Except FileError ByteArray) : DocFile :=
  ⟨join dir found.1, found.2⟩

def readDocuments (files : Files) (dir : String) : Except Error DocFiles := do
  let found ← (files.list dir).mapError .file
  (found.map (docFile dir)).foldlM addDocFile ∅

/-- Observes the words found in a document, and registers as its length one more than the position
of the last of them. -/
def indexWords (builder : Builder) (doc : DocId) (found : List Occurrence) : Builder :=
  (found.foldl (fun b o => b.add o.term doc o.position) builder).setLength doc
    ((found.getLast?.map (·.position + 1)).getD 0)

/-- Observes all words of the document in a file. -/
def indexFile (builder : Builder) (entry : DocId × DocFile) : Except Error Builder := do
  let text ← (decode entry.2.content).mapError .file
  return indexWords builder entry.1 (occurrences text)

def loadCorpus (files : Files) (order : TableOrder) (dir : String) : Except Error Index := do
  let documents ← files.readDocuments dir
  (← documents.toList.foldlM indexFile {}).build order

abbrev Queries := Std.TreeMap String String

/-- Adds the query in a file. Its id is the name of the file, as it is shown. -/
def addQuery (queries : Queries) (found : Bytes × Except FileError ByteArray) :
    Except Error Queries := do
  let text ← (decode found.2).mapError .file
  return queries.insert found.1.shown text

/-- The queries of a directory, ascending by id. -/
def readQueries (files : Files) (dir : String) : Except Error (List (String × String)) := do
  let found ← (files.list dir).mapError .file
  return (← found.foldlM addQuery ∅).toList

def readJudgements (files : Files) (path : String) : Except Error Judgements := do
  Judgements.parse (← (files.readText path).mapError .file)

end Files
end Concordance
