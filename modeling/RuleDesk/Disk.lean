import RuleDesk.Document
import RuleDesk.Text.Utf8

namespace RuleDesk

/-- The files on disk, each with its URI. -/
structure Disk where
  files : List (String × List UInt8)

/-- What is reported about a file that is being watched. -/
inductive FileChange
  | created | changed | deleted | other
deriving DecidableEq, Repr

namespace Disk

def empty : Disk := ⟨[]⟩

/-- The text of a file. Bytes that are no text are replaced. -/
def read? (d : Disk) (uri : String) : Option (List Char) := (d.files.lookup uri).map Utf8.decode

def write (d : Disk) (uri : String) (bytes : List UInt8) : Disk :=
  ⟨d.files.filter (·.1 != uri) ++ [(uri, bytes)]⟩

def delete (d : Disk) (uri : String) : Disk := ⟨d.files.filter (·.1 != uri)⟩

/-- The URI of a folder without slashes at its end. -/
def folderName (folder : String) : List Char := (folder.toList.reverse.dropWhile (· == '/')).reverse

/-- The URIs of the files with rules in a folder and in the folders below it. -/
def ruleFiles (d : Disk) (folder : String) : List String :=
  (d.files.map (·.1)).filter fun uri =>
    (folderName folder ++ ['/']).isPrefixOf uri.toList && isRuleFile uri

end Disk

end RuleDesk
