import GrammarGraph.Grammar.Basic

/-! # The grammar of definitions

Definitions are read with a grammar of their own. Its transformations turn the trees of statements
into plain nodes from which the definition is read.
-/

namespace GrammarGraph.Meta

/-- The text between the quotes. A text of less than two characters has none. -/
def unquote (text : String) : String :=
  match text.toList with
  | _ :: c :: cs => String.ofList ((c :: cs).dropLast)
  | _ => text

/-- Words that start the declaration of a token type. -/
def tokenKinds : List String := ["keyword", "word", "prefix", "postfix", "separator", "literal"]

/-- Properties that a declaration of this kind may set. -/
def propertyNames (kind : String) : List String :=
  if kind = "keyword" then ["case-sensitive"]
  else if kind = "separator" then ["is-pattern", "whitespace-allowed"]
  else []

def tokenName : TokenType := ⟨1, .validWord "[A-Z_][A-Z0-9_]*" (by decide)⟩
def value : TokenType := ⟨2, .literal⟩
def braceOpen : TokenType := ⟨3, .separator "\x7b" false⟩
def braceClose : TokenType := ⟨4, .separator "\x7d" false⟩
def parOpen : TokenType := ⟨5, .separator "(" false⟩
def parClose : TokenType := ⟨6, .separator ")" false⟩
def colon : TokenType := ⟨7, .separator ":" false⟩
def comma : TokenType := ⟨8, .separator "," false⟩
def assign : TokenType := ⟨9, .separator "=" false⟩
def bar : TokenType := ⟨10, .separator "|" false⟩
def semicolon : TokenType := ⟨11, .separator ";" false⟩
def yes : TokenType := ⟨12, .keyword "TRUE" true⟩
def no : TokenType := ⟨13, .keyword "FALSE" true⟩
def keywordWord : TokenType := ⟨14, .keyword "keyword" true⟩
def wordWord : TokenType := ⟨15, .keyword "word" true⟩
def leadingWord : TokenType := ⟨16, .keyword "prefix" true⟩
def trailingWord : TokenType := ⟨17, .keyword "postfix" true⟩
def separatorWord : TokenType := ⟨18, .keyword "separator" true⟩
def literalWord : TokenType := ⟨19, .keyword "literal" true⟩
def lineCommentStyle : TokenType := ⟨20, .keyword "line-comment-style" true⟩
def blockCommentStyle : TokenType := ⟨21, .keyword "block-comment-style" true⟩
def enable : TokenType := ⟨22, .keyword "enable" true⟩
def fullBacktracking : TokenType := ⟨23, .keyword "full-backtracking" true⟩
def isPattern : TokenType := ⟨24, .keyword "is-pattern" true⟩
def caseSensitive : TokenType := ⟨25, .keyword "case-sensitive" true⟩
def whitespaceAllowed : TokenType := ⟨26, .keyword "whitespace-allowed" true⟩
def ruleName : TokenType := ⟨27, .validWord "[a-z_][a-zA-Z0-9_]*" (by decide)⟩
def annotation : TokenType := ⟨28, .keyword "@grammar" true⟩
def name : TokenType := ⟨29, .validWord "[a-zA-Z_][a-zA-Z0-9_]*" (by decide)⟩
def questionMark : TokenType := ⟨30, .separator "?" false⟩
def star : TokenType := ⟨31, .separator "*" false⟩
def plus : TokenType := ⟨32, .separator "+" false⟩

def types : Registry := ⟨[
  tokenName, value, braceOpen, braceClose, parOpen, parClose, colon, comma, assign, bar, semicolon,
  yes, no, keywordWord, wordWord, leadingWord, trailingWord, separatorWord, literalWord,
  lineCommentStyle, blockCommentStyle, enable, fullBacktracking, isPattern, caseSensitive,
  whitespaceAllowed, ruleName, annotation, name, questionMark, star, plus]⟩

/-- The keyword of a property. -/
def property? (property : String) : Option TokenType :=
  [("is-pattern", isPattern), ("case-sensitive", caseSensitive),
    ("whitespace-allowed", whitespaceAllowed)].lookup property

/-! Numbers of the rules. -/

def propertiesRule : RuleId := 2
def elementRule : RuleId := 9
def branchRule : RuleId := 10
def groupRule : RuleId := 11

def commentStyle : Rule :=
  { name := "comment-style"
    expand := some fun _ => [
      .part (.tokenAs lineCommentStyle "line"), .part (.tokenAs value "begin"),
      .part (.token semicolon),
      .chain [.entry, .part 0, .part 1, .part 2, .exit],
      .part (.tokenAs blockCommentStyle "block"), .part (.tokenAs value "begin"),
      .part (.tokenAs value "end"), .part (.token semicolon),
      .chain [.entry, .part 3, .part 4, .part 5, .part 6, .exit]]
    transform := some fun t =>
      let start := ((t.childById? "begin").map fun n => unquote n.text).getD ""
      match t.childById? "end" with
      | none => Tree.plain "line-comment" start
      | some stop =>
        ⟨"block-comment", "", "", [Tree.plain "begin" start, Tree.plain "end" (unquote stop.text)],
          none⟩ }

def enableRule : Rule :=
  { name := "enable"
    expand := some fun _ => [
      .part (.token enable), .part (.token fullBacktracking), .part (.token semicolon),
      .chain [.entry, .part 0, .part 1, .part 2, .exit]]
    transform := some fun _ => Tree.plain "full-backtracking" "" }

/-- Clauses for one property: its keyword, a colon and a truth value, as the parts from `n` on. -/
def propertyClauses (n : Nat) (key : TokenType) : Body := [
  .part (.tokenAs key "property"), .part (.token colon),
  .part (.fork [.tokenAs yes "value", .tokenAs no "value"]),
  .chain [.part 0, .part n, .part (n + 1), .part (n + 2), .part 1]]

def propertiesClauses : Nat → List TokenType → Body
  | _, [] => []
  | n, key :: keys => propertyClauses n key ++ propertiesClauses (n + 3) keys

/-- Which properties are allowed depends on the kind of the declaration around them. -/
def propertiesBody (ctx : Context) : Body :=
  let kind := ((ctx.var? "kind").bind (·.text?)).getD ""
  let keys := (propertyNames kind).filterMap property?
  let n := 2 + 3 * keys.length
  [.part .junction, .part .junction] ++ propertiesClauses 2 keys ++ [
    .part (.token comma), .chain [.part 1, .part n, .part 0],
    .part (.token braceOpen), .part (.token braceClose),
    .chain [.entry, .part (n + 1), .part 0],
    .chain [.part 1, .part (n + 2), .exit]]

def properties : Rule :=
  { name := "properties"
    expand := some propertiesBody
    transform := some fun t =>
      let flags := (t.childrenById "property").zip (t.childrenById "value")
      ⟨"properties", "", "",
        flags.map fun (key, value) =>
          Tree.plain key.text (if value.text = "TRUE" then "true" else "false"), none⟩ }

def tokenBody (kind : String) (keyword : TokenType) : Body :=
  let head : Body :=
    [.part (.token keyword), .part (.tokenAs tokenName "id"), .part (.token semicolon)]
  if kind = "literal" then head ++ [.chain [.entry, .part 0, .part 1, .part 2, .exit]]
  else
    head ++ [.part (.tokenAs value "value"), .chain [.entry, .part 0, .part 1, .part 3]] ++
      if (propertyNames kind).isEmpty then [.chain [.part 3, .part 2, .exit]]
      else [.part (.optional (.ruleAs propertiesRule "properties")),
        .chain [.part 3, .part 4, .part 2, .exit]]

/-- What a child of a token declaration contributes. -/
def tokenChild (child : Tree) : Option Tree :=
  if child.id = "id" then some (Tree.plain "id" child.text)
  else if child.id = "value" then some (Tree.plain "value" (unquote child.text))
  else if child.id = "properties" then some { child with id := "" }
  else none

def tokenRule (kind : String) (keyword : TokenType) : Rule :=
  { name := kind
    vars := Env.empty.set "kind" (.text kind)
    expand := some fun _ => tokenBody kind keyword
    transform := some fun t => ⟨kind, "", "", t.children.filterMap tokenChild, none⟩ }

/-- What a child of an element contributes. -/
def elementChild (child : Tree) : Option Tree :=
  if child.id = "id" then some (Tree.plain "id" child.text)
  else if child.id = "token" then some (Tree.plain "token-id" child.text)
  else if child.id = "rule" then some (Tree.plain "rule-id" child.text)
  else if child.id = "keyword" then some (Tree.plain "keyword-text" (unquote child.text))
  else if child.id = "mult" then some (Tree.plain "multiplicity" child.text)
  else if child.id = "group" then some { child with id := "" }
  else none

def element : Rule :=
  { name := "element"
    expand := some fun _ => [
      .part (.optional (.sequence [.tokenAs name "id", .token assign])),
      .part (.fork [
        .tokenAs tokenName "token", .tokenAs value "keyword", .tokenAs ruleName "rule",
        .ruleAs groupRule "group"]),
      .part (.optional (.fork [.tokenAs questionMark "mult", .tokenAs star "mult",
        .tokenAs plus "mult"])), .chain [.entry, .part 0, .part 1, .part 2, .exit]]
    transform := some fun t => ⟨"element", "", "", t.children.filterMap elementChild, none⟩ }

def branch : Rule :=
  { name := "branch", expand := some fun _ => .ofPiece (.many1 (.rule elementRule)) }

/-- The branches among the children, without their ids. -/
def branches (t : Tree) : List Tree :=
  (t.children.filter (·.id = "branch")).map fun child => { child with id := "" }

def furtherBranches : Piece := .many (.sequence [.token bar, .ruleAs branchRule "branch"])

def group : Rule :=
  { name := "group"
    expand := some fun _ => [
      .part (.token parOpen), .part (.ruleAs branchRule "branch"), .part furtherBranches,
      .part (.token parClose), .chain [.entry, .part 0, .part 1, .part 2, .part 3, .exit]]
    transform := some fun t => ⟨"group", "", "", branches t, none⟩ }

def rule : Rule :=
  { name := "rule"
    expand := some fun _ => [
      .part (.optional (.tokenAs annotation "root")), .part (.tokenAs ruleName "name"),
      .part (.token assign), .part (.ruleAs branchRule "branch"), .part furtherBranches,
      .part (.token semicolon),
      .chain [.entry, .part 0, .part 1, .part 2, .part 3, .part 4, .part 5, .exit]]
    transform := some fun t =>
      let root := (t.childById? "root").map fun _ => Tree.plain "root" ""
      ⟨"rule", t.textById "name", "", root.toList ++ branches t, none⟩ }

def definition : Rule :=
  { name := "definition"
    expand := some fun _ =>
      .ofPiece (.many (.fork ([0, 1, 3, 4, 5, 6, 7, 8, 12].map Piece.rule))) }

/-- The grammar of definitions. -/
def grammar : Grammar :=
  { types
    rules := [
      commentStyle, enableRule, properties, tokenRule "keyword" keywordWord,
      tokenRule "word" wordWord, tokenRule "prefix" leadingWord, tokenRule "postfix" trailingWord,
      tokenRule "separator" separatorWord, tokenRule "literal" literalWord, element, branch, group,
      rule, definition]
    root := 13
    ident := none }

end GrammarGraph.Meta
