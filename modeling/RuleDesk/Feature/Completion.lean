import RuleDesk.Feature.Navigation
import RuleDesk.Text.Blank

namespace RuleDesk

inductive CompletionKind
  | function | field | variable | module | value | keyword | snippet | record
deriving DecidableEq, Repr

/-- A proposal for the text at the cursor. A snippet has places to fill in,
and an adjusted text is indented like the line it goes into. -/
structure CompletionItem where
  label : String
  kind : CompletionKind
  description : Option String := none
  detail : Option String := none
  documentation : Option String := none
  insertText : Option String := none
  isSnippet : Bool := false
  adjustIndentation : Bool := false
deriving DecidableEq, Repr

namespace Completion

/-- The modifiers of each kind of pattern. -/
def modifiersOf : PatternKind → List String
  | .text => ["ascii", "wide", "nocase", "private", "fullword", "base64", "base64wide", "xor"]
  | .regexp => ["ascii", "wide", "nocase", "private", "fullword"]
  | .hex => ["private"]

/-- What can start at the top level, with the text to insert. -/
def topLevelSnippets : List (String × String) :=
  [("rule", "rule $\x7b1:ident\x7d \x7b\n\tcondition:\n\t\t$\x7b2:true\x7d\n\x7d"),
   ("private rule", "private rule $\x7b1:ident\x7d \x7b\n\tcondition:\n\t\t$\x7b2:true\x7d\n\x7d"),
   ("global rule", "global rule $\x7b1:ident\x7d \x7b\n\tcondition:\n\t\t$\x7b2:true\x7d\n\x7d"),
   ("import", "import \"$\x7b1:\x7d\""),
   ("include", "include \"$\x7b1:\x7d\"")]

/-- The words of conditions, some with the text to insert. -/
def conditionWords : List (String × Option String) :=
  [("and", none), ("or", none), ("not", none), ("all", none), ("any", none), ("none", none),
   ("of", none), ("them", none), ("at", some "at $\x7b1:expression\x7d"),
   ("in", some "in ($\x7b1:start\x7d..$\x7b2:end\x7d)"), ("filesize", none), ("entrypoint", none),
   ("true", none), ("false", none), ("defined", none), ("contains", none), ("icontains", none),
   ("startswith", none), ("endswith", none), ("matches", none),
   ("for", some
     "for $\x7b1:any\x7d $\x7b2:i\x7d in ($\x7b3:iterable\x7d) : ( $\x7b4:expression\x7d )"),
   ("for of", some "for $\x7b1:any\x7d of $\x7b2:them\x7d : ( $\x7b3:expression\x7d )"),
   ("with", some "with $\x7b1:declarations\x7d : ( $\x7b2:expression\x7d )")]

/-! The text before the cursor is read backwards: in what follows, the first
character of a list is the one that stands last. -/

/-- The word that ends the text, forwards, and the text before it. The place
after the character before the word is taken to be one byte on, so a longer
character there has no such place. -/
def splitWord (back : List Char) : Except RequestError (List Char × List Char) :=
  let word := back.takeWhile fun c => isWordStart c || c.isDigit
  let rest := back.dropWhile fun c => isWordStart c || c.isDigit
  match rest with
  | [] => .ok (word.reverse, rest)
  | c :: _ => if c.utf8Size = 1 then .ok (word.reverse, rest) else .error .insideCharacter

/-- The text before the bracket that opens the one that ends the text. -/
def openBracket? : Nat → List Char → Option (List Char)
  | _, [] => none
  | depth, c :: rest =>
    if c == ']' then openBracket? (depth + 1) rest
    else if c == '[' then if depth ≤ 1 then some rest else openBracket? (depth - 1) rest
    else openBracket? depth rest

/-- The number of bracket pairs that end the text, and the text before them. -/
def skipBrackets? : Nat → List Char → Option (Nat × List Char)
  | 0, back => some (0, back)
  | fuel + 1, back =>
    if back.head? == some ']' then do
      let (pairs, rest) ← skipBrackets? fuel (← openBracket? 0 back)
      some (pairs + 1, rest)
    else some (0, back)

def startsWithDigit (cs : List Char) : Bool := (cs.head?.map Char.isDigit).getD false

/-- The path that ends the text, behind the segments in `after`. What stands
in brackets does not matter. -/
def pathBackwards : Nat → List Char → Path → Except RequestError (Option Path)
  | 0, _, _ => .ok none
  | fuel + 1, back, after => do
    match skipBrackets? back.length back with
    | none => return none
    | some (pairs, rest) =>
      let (word, rest) ← splitWord rest
      if word.isEmpty || startsWithDigit word then return none
      let after := .field (String.ofList word) :: (List.replicate pairs .index ++ after)
      match rest with
      | '.' :: rest => pathBackwards fuel rest after
      | c :: _ => return if (Sigil.ofChar? c).isSome then none else some after
      | [] => return some after

/-- The path that ends a text, such as `pe.sections[0]`. The names of
patterns have no members. -/
def pathBefore (back : List Char) : Except RequestError (Option Path) :=
  pathBackwards (back.length + 1) back []

/-- The path from a module on. A loop variable at the root stands for the
items it is bound to. -/
def modulePath? (catalog : Catalog) (x : DocumentIndex) (offset : Nat) (p : Path) : Option Path :=
  match p with
  | .field root :: rest =>
    match x.variableAt? root offset with
    | some i => (x.loopVars[i]?.bind (·.binding)).map (· ++ rest)
    | none => (catalog.module? root).map fun _ => p
  | _ => none

/-- The node that a path before a dot leads to, or the last one on the way. -/
def memberNode (catalog : Catalog) (x : DocumentIndex) (offset : Nat) (back : List Char) :
    Except RequestError (Option SchemaNode) := do
  return ((← pathBefore back).bind (modulePath? catalog x offset)).bind fun p =>
    (catalog.longestPrefix? p).map (·.1)

/-- A call with a place to fill in for each parameter of the first overload. -/
def callSnippet (name : String) (overloads : List Signature) : String :=
  let params := (overloads.head?.map (·.params)).getD []
  name ++ "(" ++ ", ".intercalate (params.zipIdx.map fun (type, i) =>
    "$\x7b" ++ toString (i + 1) ++ ":" ++ type ++ "\x7d") ++ ")"

/-- A member. Functions are proposed by name, and as a call unless the
arguments are already there. -/
def memberItems (beforeParen : Bool) (member : String × SchemaNode) : List CompletionItem :=
  let (name, node) := member
  match node with
  | .function doc overloads =>
    let detail := some ("\n".intercalate (node.signatures name))
    { label := name, kind := .function, detail, documentation := doc } ::
      if beforeParen then []
      else [{ label := name ++ "()", kind := .function, detail, documentation := doc,
              insertText := some (callSnippet name overloads), isSnippet := true }]
  | _ =>
    let kind := match node with
      | .record .. => CompletionKind.record
      | .root .. => .module
      | _ => .field
    [{ label := name, kind, detail := some node.typeName, documentation := node.doc? }]

/-- The keys of a dictionary, after its bracket and maybe a quote. -/
def keyItems (catalog : Catalog) (x : DocumentIndex) (offset : Nat) (back : List Char) :
    Except RequestError (Option (List CompletionItem)) := do
  let inside := (back.takeWhile (· != '[')).reverse
  match back.dropWhile (· != '[') with
  | [] => return none
  | _ :: before =>
    let quoted? : Option Bool := match inside with
      | [] => some false
      | '"' :: key => if key.any fun c => c == '"' || c == ']' then none else some true
      | _ => none
    match quoted? with
    | none => return none
    | some quoted =>
      match ((← pathBefore before).bind (modulePath? catalog x offset)).bind catalog.find? with
      | some (.dictionary _ _ keys) =>
        return some (keys.map fun key =>
          { label := key, kind := .value,
            insertText := some (if quoted then key else "\"" ++ key ++ "\"") })
      | _ => return none

/-- True if a line, given backwards, ends inside of the string of an import. -/
def isImportString (line : List Char) : Bool :=
  match line.dropWhile (· != '"') with
  | [] => false
  | _ :: head =>
    ['t', 'r', 'o', 'p', 'm', 'i'].isPrefixOf (head.dropWhile isBlank) && !head.contains '"'

def moduleItems (names : List String) : List CompletionItem :=
  names.map fun name => { label := name, kind := .module }

def topLevelItems : List CompletionItem :=
  topLevelSnippets.map fun (label, text) =>
    { label, kind := .snippet, insertText := some text, isSnippet := true, adjustIndentation := true }

def sectionItems : List CompletionItem :=
  ["meta", "strings", "condition"].map fun word =>
    { label := word, kind := .keyword, description := some ("Section " ++ word),
      insertText := some (word ++ ":\n\t"), adjustIndentation := true }

def modifierItems (kind : PatternKind) : List CompletionItem :=
  (modifiersOf kind).map fun word => { label := word, kind := .keyword }

/-- The patterns of a rule that have a name. -/
def namedPatterns (x : DocumentIndex) (rule : Nat) : List PatternSymbol :=
  ((x.rules[rule]?.map (·.patterns)).getD []).filter fun p => 1 < p.name.utf8ByteSize

/-- The patterns of a rule after a sigil, which is not proposed again. -/
def patternItems (x : DocumentIndex) (rule : Nat) (sigil : Char) : List CompletionItem :=
  (namedPatterns x rule).map fun p =>
    let bare := String.ofList (p.name.toList.drop 1)
    { label := bare, kind := .variable, description := some "Pattern",
      detail := some (String.singleton sigil ++ bare) }

def nameItem (description label : String) : CompletionItem :=
  { label, kind := .variable, description := some description }

/-- The names that a condition can use: the other rules, the patterns, the
loop variables in scope, the imported modules, and the words. -/
def conditionItems (s : Snapshot) (x : DocumentIndex) (rule offset : Nat) : List CompletionItem :=
  let current := x.rules[rule]?.map (·.name)
  let rules := (s.documents.flatMap fun y => y.rules.map (·.name)).filter fun name =>
    name != "" && some name != current
  rules.eraseDups.map (nameItem "Rule") ++
    (namedPatterns x rule).map (fun p => nameItem "Pattern" p.name) ++
    (x.loopVars.filter (·.scope.touches offset)).map (fun v => nameItem "Variable" v.name) ++
    moduleItems (x.document.file.imports.map (·.moduleName)).eraseDups ++
    conditionWords.map fun (label, text) =>
      { label, kind := .keyword, insertText := text, isSnippet := text.isSome }

/-- The kind of the last pattern that starts before an offset. -/
def patternKindBefore (rule : Rule) (offset : Nat) : PatternKind :=
  ((rule.patterns.reverse.find? (·.span.start ≤ offset)).map (·.kind)).getD .text

/-- True in the head of a rule, up to its opening brace. -/
def insideHeader (rule : Rule) (offset : Nat) : Bool :=
  match rule.lbrace with
  | some lbrace => offset < lbrace.stop
  | none => true

/-- Proposals inside of a rule, after the text `back` and the word in it. -/
def ruleItems (s : Snapshot) (x : DocumentIndex) (offset i : Nat) (rule : Rule)
    (back beforeWord : List Char) : List CompletionItem :=
  if insideHeader rule offset then []
  else
    match (rule.sectionAt? offset).filter fun section_ => section_.keyword.stop ≤ offset with
    | none => sectionItems
    | some section_ =>
      match section_.kind with
      | .metas => []
      | .strings =>
        if (back.takeWhile (· != '\n')).contains '='
          then modifierItems (patternKindBefore rule offset)
        else []
      | .condition =>
        match beforeWord.head?.filter fun c => (Sigil.ofChar? c).isSome with
        | some sigil => patternItems x i sigil
        | none => conditionItems s x i offset

/-- Proposals at an offset, where `back` is the text before it, backwards,
and `next` the text from there on. -/
def itemsAt (s : Snapshot) (catalog : Catalog) (x : DocumentIndex) (offset : Nat)
    (back next : List Char) : Except RequestError (List CompletionItem) := do
  match ← keyItems catalog x offset back with
  | some items => return items
  | none =>
    let (_, beforeWord) ← splitWord back
    match beforeWord with
    | '.' :: beforeDot =>
      let node ← memberNode catalog x offset beforeDot
      return ((node.map (·.members)).getD []).flatMap (memberItems (next.head? == some '('))
    | _ =>
      match x.document.ruleAt? offset with
      | some (i, rule) => return ruleItems s x offset i rule back beforeWord
      | none =>
        if isImportString (back.takeWhile (· != '\n')) then
          return moduleItems (catalog.modules.map (·.1))
        return topLevelItems

end Completion

/-- Proposals for the text at a position. -/
def Snapshot.completion (s : Snapshot) (catalog : Catalog) (uri : String) (p : Position) :
    Except RequestError (Option (List CompletionItem)) := do
  let x ← s.require uri
  match x.document.offset? p with
  | none => return none
  | some offset =>
    match takeBytes? x.document.text offset, dropBytes? x.document.text offset with
    | some before, some next =>
      return some (← Completion.itemsAt s catalog x offset before.reverse next)
    | _, _ => return none

end RuleDesk
