import RuleDesk.Parse.Expression

namespace RuleDesk

/-- What a text says, with all the errors found in it. -/
structure SourceFile where
  imports : List Import
  includes : List Include
  rules : List Rule
  errors : List SyntaxError

/-- The text without a quote at its front and without one at its end. -/
def unquote (cs : List Char) : List Char :=
  let inner := match cs with
    | '"' :: rest => rest
    | _ => cs
  if inner.getLast? == some '"' then inner.dropLast else inner

namespace Parser

def importItem : Parser (Option Import) := do
  match ← advance with
  | none => return none
  | some start =>
    match ← expect .string with
    | none => return none
    | some t => return some ⟨start.span.through t.span, String.ofList (unquote t.text), t.span⟩

def includeItem : Parser (Option Include) := do
  match ← advance with
  | none => return none
  | some start =>
    match ← expect .string with
    | none => return none
    | some t => return some ⟨start.span.through t.span, String.ofList (unquote t.text)⟩

/-- A number after a minus sign in a meta section. -/
def negativeMeta : Parser (Option MetaValue) := do
  match ← peek with
  | some t =>
    match t.kind with
    | .integer =>
      let _ ← advance
      return some (.integer (-(← integerValue t)))
    | .float =>
      let _ ← advance
      return some (.float (Double.ofDecimal t.text).negate)
    | _ =>
      unexpected .number
      return none
  | none =>
    unexpected .number
    return none

def metaValue : Parser (Option MetaValue) := do
  match ← peek with
  | none =>
    unexpected .metaValue
    return none
  | some t =>
    match t.kind with
    | .keyword .kwTrue =>
      let _ ← advance
      return some (.bool true)
    | .keyword .kwFalse =>
      let _ ← advance
      return some (.bool false)
    | .string =>
      let _ ← advance
      return some (.string (String.ofList (unquote t.text)))
    | .openString =>
      report .unterminatedString t.span
      let _ ← advance
      return some (.string (String.ofList (t.text.drop 1)))
    | .float =>
      let _ ← advance
      return some (.float (Double.ofDecimal t.text))
    | .integer =>
      let value ← integerValue t
      let _ ← advance
      return some (.integer value)
    | .symbol .hyphen =>
      let _ ← advance
      negativeMeta
    | _ =>
      unexpected .metaValue
      return none

def metaStep (entries : List MetaEntry) : Parser (ForInStep (List MetaEntry)) := do
  match ← eat .ident with
  | none => return .done entries
  | some t =>
    match ← expect (.symbol .equal) with
    | none => return .done entries
    | some _ =>
      match ← metaValue with
      | none => return .done entries
      | some value =>
        return .yield (entries ++ [⟨t.span.through (← pointHere), identOf t, value⟩])

/-- The numbers and the hyphen of a jump, after its bracket. -/
def hexJump : Parser Unit := do
  let _ ← eat .integer
  if (← eat (.symbol .hyphen)).isSome then
    let _ ← eat .integer
  let _ ← expect (.symbol .rbracket)

/-- Where a hex pattern is: inside of how many parentheses, or ended. -/
inductive HexProgress
  | within (parens : Nat)
  | ended (stop : Nat)
deriving DecidableEq, Repr

/-- One item more of a hex pattern. One that does not fit ends the pattern at
the next brace, or before the next recovery point. -/
def hexStep (lbrace : Span) : HexProgress → Parser (ForInStep HexProgress)
  | .ended stop => return .done (.ended stop)
  | .within parens => do
    match ← peek with
    | none =>
      report .unbalancedBraces lbrace
      return .done (.ended (← lastStop))
    | some t =>
      if t.kind = .hexByte then
        let _ ← advance
        return .yield (.within parens)
      else if t.kind = .symbol .lbracket then
        let _ ← advanceInto .jump
        hexJump
        return .yield (.within parens)
      else if t.kind = .symbol .lparen then
        let _ ← advance
        return .yield (.within (parens + 1))
      else if t.kind = .symbol .pipe ∧ 0 < parens then
        let _ ← advance
        return .yield (.within parens)
      else if t.kind = .symbol .rparen ∧ 0 < parens then
        let _ ← advance
        return .yield (.within (parens - 1))
      else if t.kind = .symbol .rbrace ∧ parens = 0 then
        let _ ← advance
        return .done (.ended t.stop)
      else if ← atSyncPoint then
        report .unbalancedBraces lbrace
        return .done (.ended (← lastStop))
      else
        unexpected (if 0 < parens then .hexByteOrAlternative else .hexByteOrBrace)
        skipToSyncPoint
        match ← eat (.symbol .rbrace) with
        | some rbrace => return .done (.ended rbrace.stop)
        | none => return .done (.ended (← lastStop))

/-- The content of a hex pattern after its brace, and where it ends. -/
def hexPattern (lbrace : Span) : Parser Nat := do
  match ← iterate (hexStep lbrace) (.within 0) with
  | .ended stop => return stop
  | .within _ => lastStop

def patternValue : Parser (Option (PatternKind × Span)) := do
  match ← peek with
  | none =>
    unexpected .patternValue
    return none
  | some t =>
    match t.kind with
    | .string =>
      let _ ← advance
      return some (.text, t.span)
    | .regexp =>
      let _ ← advance
      return some (.regexp, t.span)
    | .openString =>
      let _ ← advance
      report .unterminatedString t.span
      return some (.text, t.span)
    | .openRegexp =>
      let _ ← advance
      report .unterminatedRegexp t.span
      return some (.regexp, t.span)
    | .symbol .lbrace =>
      let _ ← advanceInto .hex
      let stop ← hexPattern t.span
      return some (.hex, ⟨t.start, stop⟩)
    | _ =>
      unexpected .patternValue
      return none

/-- True where the arguments of a modifier are over. -/
def atArgumentsEnd : Parser Bool := do
  if ← atKind (.symbol .rparen) then return true
  atSyncPoint

/-- One token more of the arguments of a modifier, which are not looked into. -/
def argumentStep (_ : Unit) : Parser (ForInStep Unit) := do
  if ← atArgumentsEnd then return .done ()
  let _ ← advance
  return .yield ()

/-- Skips to the parenthesis that closes the arguments of a modifier. -/
def skipArguments : Parser Unit := do
  if (← eat (.symbol .lparen)).isSome then
    iterate argumentStep ()
    let _ ← expect (.symbol .rparen)

def isPlainModifier : Kind → Bool
  | .keyword w => w == .kwAscii || w == .kwWide || w == .kwNocase || w == .kwFullword
  | _ => false

def isModifierWithArguments : Kind → Bool
  | .keyword w => w == .kwXor || w == .kwBase64 || w == .kwBase64Wide
  | _ => false

/-- True of a modifier without arguments. Before a rule, `private` belongs to
the rule. -/
def isBareModifier (k : Kind) : Parser Bool := do
  if k == .keyword .kwPrivate then return !(← atTopLevelItem)
  return isPlainModifier k

/-- One modifier more. -/
def modifierStep (modifiers : List Modifier) : Parser (ForInStep (List Modifier)) := do
  match ← peek with
  | none => return .done modifiers
  | some t =>
    if ← isBareModifier t.kind then
      let _ ← advance
    else if isModifierWithArguments t.kind then
      let _ ← advance
      skipArguments
    else return .done modifiers
    return .yield (modifiers ++ [⟨⟨t.start, ← lastStop⟩, t.name⟩])

def modifiers : Parser (List Modifier) := iterate modifierStep []

/-- Keeps a pattern whose name is new. Anonymous patterns are all kept. -/
def keepPattern (patterns : List Pattern) (p : Pattern) : Parser (List Pattern) := do
  if p.ident.name == "$" then return patterns ++ [p]
  match patterns.find? (·.ident.name == p.ident.name) with
  | some existing =>
    report (.duplicatePattern p.ident.name existing.ident.span) p.ident.span
    return patterns
  | none => return patterns ++ [p]

/-- The value and the modifiers of a pattern whose identifier cannot be
declared. They are read and not kept. -/
def dropDeclaration (t : Token) (patterns : List Pattern) : Parser (ForInStep (List Pattern)) := do
  report (.invalidPatternIdentifier t.name) t.span
  let _ ← advance
  let _ ← advance
  match ← patternValue with
  | none => return .done patterns
  | some _ =>
    let _ ← modifiers
    return .yield patterns

def declaration (t : Token) (patterns : List Pattern) : Parser (ForInStep (List Pattern)) := do
  let _ ← advance
  match ← expect (.symbol .equal) with
  | none => return .done patterns
  | some _ =>
    match ← patternValue with
    | none => return .done patterns
    | some (kind, value) =>
      let modifiers ← modifiers
      return .yield (← keepPattern patterns
        ⟨t.span.through (← pointHere), identOf t, kind, value, modifiers⟩)

/-- Names that look like the identifier of a pattern and are none. -/
def isMisnamed : Kind → Bool
  | .ident => true
  | .sigil s => s != .identity
  | _ => false

/-- True at such a name before an equals sign. -/
def declaresMisnamed (k : Kind) : Parser Bool := do
  if isMisnamed k then return (← peekSecondKind) == some (.symbol .equal)
  return false

def patternStep (patterns : List Pattern) : Parser (ForInStep (List Pattern)) := do
  match ← peek with
  | none => return .done patterns
  | some t =>
    if t.kind = .sigil .identity then declaration t patterns
    else if ← declaresMisnamed t.kind then dropDeclaration t patterns
    else return .done patterns

/-- `private` and `global` inside of a section, where no rule starts. -/
def atFalseTopLevelModifier : Parser Bool := do
  let k ← peekKind
  if k == some (.keyword .kwPrivate) || k == some (.keyword .kwGlobal) then
    return !(← atTopLevelItem)
  return false

def sectionKindOf? : Kind → Option SectionKind
  | .keyword .kwMeta => some .metas
  | .keyword .kwStrings => some .strings
  | .keyword .kwCondition => some .condition
  | _ => none

/-- What stands after the colon of a section, put into the rule. Only the
first condition counts. -/
def sectionContent (kind : SectionKind) (duplicate : Bool) (rule : Rule) : Parser Rule := do
  match kind with
  | .metas => return { rule with metas := ← iterate metaStep rule.metas }
  | .strings => return { rule with patterns := ← iterate patternStep rule.patterns }
  | .condition =>
    let condition ← expression
    return if duplicate then rule else { rule with condition := some condition }

/-- The colon of a section after its keyword. Gives the span of both. -/
def sectionHead (kind : SectionKind) (duplicate : Bool) (keyword : Token) : Parser Span := do
  if duplicate then report (.duplicateSection kind.keyword.text) keyword.span
  let _ ← expect (.symbol .colon)
  return ⟨keyword.start, ← lastStop⟩

/-- The offset where a section ends, before the next recovery point. What is
left of the section is skipped. -/
def sectionEnd : Parser Nat := do
  if !(← atSyncPoint) || (← atFalseTopLevelModifier) then
    unexpected .endOfSection
    skipToSyncPoint
  match ← peek with
  | some t => return t.start
  | none => textStop

/-- A section, at its keyword. -/
def ruleSection (kind : SectionKind) (rule : Rule) : Parser Rule := do
  match ← advance with
  | none => return rule
  | some keyword =>
    let duplicate := rule.sections.any (·.kind == kind)
    let keywordSpan ← sectionHead kind duplicate keyword
    let rule ← sectionContent kind duplicate rule
    let stop ← sectionEnd
    return { rule with sections := rule.sections ++ [⟨kind, keywordSpan, ⟨keyword.start, stop⟩⟩] }

/-- One part more of the body of a rule. The rule ends at its closing brace,
or without one at a top-level item or at the end. -/
def bodyStep (rule : Rule) : Parser (ForInStep Rule) := do
  match ← peek with
  | none =>
    report .unbalancedBraces (rule.lbrace.getD rule.ident.span)
    return .done rule
  | some t =>
    if t.kind = .symbol .rbrace then
      let _ ← advance
      return .done { rule with rbrace := some t.span }
    match sectionKindOf? t.kind with
    | some kind =>
      setPanicking false
      return .yield (← ruleSection kind rule)
    | none =>
      if ← atTopLevelItem then
        report .unbalancedBraces (rule.lbrace.getD rule.ident.span)
        return .done rule
      unexpected .ruleSection
      let _ ← advance
      return .yield rule

/-- Whether a rule is private and whether it is global. -/
structure RuleFlags where
  isPrivate : Bool
  isGlobal : Bool
deriving DecidableEq, Repr

def flagStep (flags : RuleFlags) : Parser (ForInStep RuleFlags) := do
  match ← peek with
  | none => return .done flags
  | some t =>
    if t.kind = .keyword .kwPrivate then
      let _ ← advance
      if flags.isPrivate then report (.duplicateModifier t.name) t.span
      return .yield { flags with isPrivate := true }
    else if t.kind = .keyword .kwGlobal then
      let _ ← advance
      if flags.isGlobal then report (.duplicateModifier t.name) t.span
      return .yield { flags with isGlobal := true }
    else return .done flags

/-- The name of a rule. A missing name is empty and has an empty span. -/
def ruleName : Parser Ident := do
  match ← eat .ident with
  | some t => return identOf t
  | none =>
    unexpected .ruleName
    return ⟨"", ← pointHere⟩

def tagStep (tags : List Ident) : Parser (ForInStep (List Ident)) := do
  match ← eat .ident with
  | none => return .done tags
  | some t =>
    if tags.any (·.name == t.name) then
      report (.duplicateTag t.name) t.span
      return .yield tags
    return .yield (tags ++ [identOf t])

def tags : Parser (List Ident) := do
  if (← eat (.symbol .colon)).isSome then iterate tagStep [] else return []

/-- The head of a rule after its keyword: a rule that has no sections yet, and
that is its name so far. -/
def ruleHead (flags : RuleFlags) : Parser Rule := do
  let ident ← ruleName
  let tags ← tags
  let lbrace := (← expect (.symbol .lbrace)).map (·.span)
  return { isPrivate := flags.isPrivate, isGlobal := flags.isGlobal, ident, tags, metas := [],
           patterns := [], condition := none, sections := [], lbrace, rbrace := none, span :=
             ident.span }

/-- The offset where a rule stops: at its closing brace, or where it is cut off. -/
def ruleStop (rule : Rule) : Parser Nat :=
  match rule.rbrace with
  | some rbrace => return rbrace.stop
  | none => lastStop

/-- A rule after its keyword. -/
def ruleAfterKeyword (start : Nat) (flags : RuleFlags) : Parser Rule := do
  let rule ← iterate bodyStep (← ruleHead flags)
  let stop ← ruleStop rule
  if !rule.sections.any (·.kind == .condition) && rule.ident.name != "" then
    report (.missingCondition rule.ident.name) rule.ident.span
  return { rule with span := ⟨start, stop⟩ }

/-- A rule, at its first modifier or at its keyword. -/
def ruleItem : Parser (Option Rule) := do
  match ← peek with
  | none => return none
  | some t =>
    let flags ← iterate flagStep ⟨false, false⟩
    match ← expect (.keyword .kwRule) with
    | none => return none
    | some _ => return some (← ruleAfterKeyword t.start flags)

/-- The items at the top level of a text, without the errors. -/
structure Items where
  imports : List Import
  includes : List Include
  rules : List Rule

def itemStep (items : Items) : Parser (ForInStep Items) := do
  match ← peekKind with
  | none => return .done items
  | some (.keyword .kwImport) =>
    setPanicking false
    return .yield { items with imports := items.imports ++ (← importItem).toList }
  | some (.keyword .kwInclude) =>
    setPanicking false
    return .yield { items with includes := items.includes ++ (← includeItem).toList }
  | some k =>
    if k = .keyword .kwRule ∨ k = .keyword .kwPrivate ∨ k = .keyword .kwGlobal then
      setPanicking false
      return .yield { items with rules := items.rules ++ (← ruleItem).toList }
    unexpected .topLevelItem
    let _ ← advance
    return .yield items

def sourceFile : Parser SourceFile := do
  let items ← iterate itemStep ⟨[], [], []⟩
  return ⟨items.imports, items.includes, items.rules, (← look).errors⟩

/-- The state before the first token of a text. -/
def initial (text : List Char) : ParseState := ⟨Input.at (Cursor.start text), false, 0, [], []⟩

end Parser

/-- Parses a text. This never fails: what is malformed is reported and left out. A text of
`Span.maxOffset` bytes or more, whose places the spans of the program cannot hold, is parsed as any
other; the program refuses it. -/
def parse (text : List Char) : SourceFile := (Parser.sourceFile.run (Parser.initial text)).1

end RuleDesk
