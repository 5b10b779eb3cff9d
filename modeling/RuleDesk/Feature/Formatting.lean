import RuleDesk.Format
import RuleDesk.Feature.Rename

namespace RuleDesk

/-- The edit that lays out a document: its whole text is replaced. There is
none if nothing changes or if the text has errors. -/
def Snapshot.formatting (s : Snapshot) (uri : String) (o : FormatOptions) :
    Except RequestError (Option (List TextEdit)) := do
  let x ← s.require uri
  let source := x.document.text
  match format o source with
  | .error (.syntaxErrors ..) => return none
  | .error .columnOverflow => throw .columnOverflow
  | .ok text =>
    if text = source then return none
    return some [⟨x.document.range ⟨0, byteLength source⟩, String.ofList text⟩]

end RuleDesk
