import GrammarGraph.Definition.Basic
import GrammarGraph.Definition.Meta
import GrammarGraph.Parser

/-! # Reading definitions -/

namespace GrammarGraph

namespace Multiplicity

def ofText? (text : String) : Option Multiplicity :=
  if text = "?" then some .zeroOrOne
  else if text = "*" then some .zeroOrMore
  else if text = "+" then some .oneOrMore
  else none

def text : Multiplicity → String
  | zeroOrOne => "?"
  | zeroOrMore => "*"
  | oneOrMore => "+"

@[simp] theorem ofText?_text (m : Multiplicity) : ofText? m.text = some m := by cases m <;> decide

end Multiplicity

namespace Item

/-- What the children of an element said so far; a later one of a kind replaces an earlier one. -/
structure Draft where
  ident : Option String := none
  target : Option (Target ⊕ List Branch) := none
  multiplicity : Option Multiplicity := none

def Draft.item (d : Draft) : Except DefinitionError Item :=
  match d.target with
  | some (.inl target) => .ok (.single d.ident target d.multiplicity)
  | some (.inr branches) => .ok (.group d.ident branches d.multiplicity)
  | none => .error (.malformed "element without target")

mutual

/-- The branches among nodes. -/
def readBranches : List Tree → Except DefinitionError (List Branch)
  | [] => .ok []
  | t :: ts => do
    let first ← readBranch t
    let rest ← readBranches ts
    return first.toList ++ rest

/-- A branch, unless the node is something else. -/
def readBranch : Tree → Except DefinitionError (Option Branch)
  | ⟨name, _, _, children, _⟩ =>
    if name = "branch" then (readItems children).map some else .ok none

/-- The elements among nodes. -/
def readItems : List Tree → Except DefinitionError (List Item)
  | [] => .ok []
  | t :: ts => do
    let first ← readItem t
    let rest ← readItems ts
    return first.toList ++ rest

/-- An element, unless the node is something else. -/
def readItem : Tree → Except DefinitionError (Option Item)
  | ⟨name, _, _, children, _⟩ =>
    if name = "element" then do
      let draft ← readParts children {}
      return some (← draft.item)
    else .ok none

def readParts : List Tree → Draft → Except DefinitionError Draft
  | [], d => .ok d
  | t :: ts, d => do
    let d ← readPart t d
    readParts ts d

def readPart : Tree → Draft → Except DefinitionError Draft
  | ⟨name, text, _, children, _⟩, d =>
    if name = "id" then .ok { d with ident := some text }
    else if name = "token-id" then .ok { d with target := some (.inl (.token text)) }
    else if name = "rule-id" then .ok { d with target := some (.inl (.rule text)) }
    else if name = "keyword-text" then .ok { d with target := some (.inl (.keyword text)) }
    else if name = "group" then do
      let branches ← readBranches children
      return { d with target := some (.inr branches) }
    else if name = "multiplicity" then
      match Multiplicity.ofText? text with
      | some m => .ok { d with multiplicity := some m }
      | none => .error (.malformed text)
    else .error (.malformed name)

end

end Item

namespace TokenDecl

/-- A property of a declaration, or its default. -/
def flag (t : Tree) (property : String) (default : Bool) : Bool :=
  match (t.child? "properties").bind (·.child? property) with
  | some p => p.text == "true"
  | none => default

def formOf (t : Tree) : Except DefinitionError TokenForm :=
  let value := ((t.child? "value").map (·.text)).getD ""
  match t.name with
  | "keyword" => .ok (.keyword value (flag t "case-sensitive" true))
  | "word" => .ok (.word value)
  | "prefix" => .ok (.leading value)
  | "postfix" => .ok (.trailing value)
  | "separator" =>
    .ok (.separator value (flag t "is-pattern" false) (flag t "whitespace-allowed" true))
  | "literal" => .ok .literal
  | other => .error (.malformed other)

def ofTree (t : Tree) : Except DefinitionError TokenDecl :=
  match t.child? "id" with
  | none => .error (.malformed "token definition without name")
  | some id => (formOf t).map (⟨id.text, ·⟩)

end TokenDecl

def RuleDecl.ofTree (t : Tree) : Except DefinitionError RuleDecl :=
  (Item.readBranches t.children).map (⟨t.text, (t.child? "root").isSome, ·⟩)

namespace Definition

/-- Take a statement into a definition. Only the first comment style of a kind counts. -/
def addStatement (d : Definition) (t : Tree) : Except DefinitionError Definition :=
  if t.name = "line-comment" then
    .ok { d with lineComment := d.lineComment.or (some t.text) }
  else if t.name = "block-comment" then
    if d.blockComment.isSome then .ok d
    else
      match t.child? "begin", t.child? "end" with
      | some start, some stop => .ok { d with blockComment := some ⟨start.text, stop.text⟩ }
      | _, _ => .error (.malformed "block comment")
  else if t.name = "full-backtracking" then .ok { d with fullBacktracking := true }
  else if t.name = "rule" then (RuleDecl.ofTree t).map fun r => { d with rules := d.rules ++ [r] }
  else if Meta.tokenKinds.contains t.name then
    (TokenDecl.ofTree t).map fun decl => { d with tokens := d.tokens ++ [decl] }
  else .error (.malformed t.name)

/-- Read the tree that the grammar of definitions gives. -/
def ofTree (t : Tree) : Except DefinitionError Definition := t.children.foldlM addStatement {}

/-- Comments in definitions run from a number sign to the end of the line, or sit
between angle brackets. -/
def parser : Parser :=
  let p := Parser.ofGrammar Meta.grammar
  { p with lexer := (p.lexer.setLineComment "#").setBlockComment "<!--" "-->" }

def readWithin (fuel : Nat) (text : List Char) (source : Option String) :
    Option (Except DefinitionError Definition) :=
  (parser.parseWithin fuel text source).map fun result => (result.mapError .parse).bind ofTree

/-- Read a definition. -/
def read (text : String) : Option (Except DefinitionError Definition) :=
  readWithin Parser.bound text.toList none

/-- Read a definition from the content of a file, whose name appears in errors. -/
def ofFile (name content : String) : Option (Except DefinitionError Definition) :=
  readWithin Parser.bound content.toList (some name)

end Definition

end GrammarGraph
