import RuleDesk.Analysis
import RuleDesk.Json
import RuleDesk.Feature.Completion
import RuleDesk.Feature.Rename

namespace RuleDesk.Lsp

open Json

def ofPosition (p : Position) : Json := obj [("line", nat p.line), ("character", nat p.column)]

def ofRange (r : PositionRange) : Json :=
  obj [("start", ofPosition r.start), ("end", ofPosition r.stop)]

def ofLocation (l : Location) : Json := obj [("uri", str l.uri), ("range", ofRange l.range)]

def ofHighlight (h : Highlight) : Json :=
  obj [("range", ofRange h.range),
    ("kind", int (match h.kind with
      | .read => 2
      | .write => 3))]

def ofTextEdit (e : TextEdit) : Json := obj [("range", ofRange e.range), ("newText", str e.newText)]

def ofWorkspaceEdit (e : WorkspaceEdit) : Json :=
  obj [("changes", obj (e.map fun (uri, edits) => (uri, arr (edits.map ofTextEdit))))]

def ofMarkdown (text : String) : Json := obj [("kind", str "markdown"), ("value", str text)]

def completionKindNumber : CompletionKind → Int
  | .function => 3
  | .field => 5
  | .variable => 6
  | .module => 9
  | .value => 12
  | .keyword => 14
  | .snippet => 15
  | .record => 22

def ofCompletionItem (i : CompletionItem) : Json :=
  objOf [("label", some (str i.label)),
    ("labelDetails", i.description.map fun d => obj [("description", str d)]),
    ("kind", some (int (completionKindNumber i.kind))),
    ("detail", i.detail.map str),
    ("documentation", i.documentation.map ofMarkdown),
    ("insertText", i.insertText.map str),
    ("insertTextFormat", if i.isSnippet then some (int 2) else none),
    ("insertTextMode", if i.adjustIndentation then some (int 2) else none)]

def severityNumber : Severity → Int
  | .error => 1
  | .warning => 2
  | .information => 3

/-- The source that a client shows beside a diagnostic. -/
def sourceName : Origin → String
  | .analysis => "yarals"
  | .compiler => "compiler"

/-- A diagnostic of a text. -/
def ofDiagnostic (text : List Char) (x : Diagnostic) : Json :=
  objOf [("range", some (ofRange (Lines.range text x.span))),
    ("severity", some (int (severityNumber x.severity))),
    ("code", x.code.map str),
    ("source", some (str (sourceName x.origin))),
    ("message", some (str x.message))]

def ofPublication (p : Publication) : Json :=
  objOf [("uri", some (str p.uri)),
    ("version", p.version.map int),
    ("diagnostics", some (arr (p.diagnostics.map (ofDiagnostic p.text))))]

end RuleDesk.Lsp
