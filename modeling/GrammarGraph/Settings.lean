import GrammarGraph.Error
import GrammarGraph.Tree.Reduce
import GrammarGraph.Yaml.Reader

/-! # Parser settings -/

namespace GrammarGraph

structure BlockComment where
  start : String
  stop : String
deriving DecidableEq, Repr

structure Settings where
  lineComment : Option String := none
  blockComment : Option BlockComment := none
  fullBacktracking : Bool := false
  /-- Columns that a tab takes. -/
  tabSize : UInt64 := 1
  tree : TreeKind := .ast
deriving DecidableEq, Repr

def BlockComment.ofYaml? (y : Yaml) : Option BlockComment := do
  let fields ← y.fields?
  return ⟨← Yaml.field? fields "start" Yaml.text?, ← Yaml.field? fields "end" Yaml.text?⟩

/-- Skip the comments that are given, and keep the markers of those that are not. -/
def Lexer.setComments (lx : Lexer) (line : Option String) (block : Option BlockComment) : Lexer :=
  let lx := match line with
    | some marker => lx.setLineComment marker
    | none => lx
  match block with
  | some b => lx.setBlockComment b.start b.stop
  | none => lx

def TreeKind.ofYaml? (y : Yaml) : Option TreeKind :=
  y.text?.bind fun s => [("ast", .ast), ("parse-tree", .parseTree)].lookup s

namespace Settings

/-- What is not given keeps its default, and unknown names do not count. -/
def ofYaml? (y : Yaml) : Option Settings := do
  let fields ← y.fields?
  let d : Settings := {}
  return {
    lineComment := ← Yaml.fieldOr fields "line_comment" (Yaml.optional Yaml.text?) d.lineComment
    blockComment :=
      ← Yaml.fieldOr fields "block_comment" (Yaml.optional BlockComment.ofYaml?) d.blockComment
    fullBacktracking := ← Yaml.fieldOr fields "full_backtracking" Yaml.bool? d.fullBacktracking
    tabSize := ← Yaml.fieldOr fields "tab_size" Yaml.word? d.tabSize
    tree := ← Yaml.fieldOr fields "tree" TreeKind.ofYaml? d.tree }

@[simp] theorem ofYaml?_missing : ofYaml? .missing = some {} := rfl

def read (document : String) : Except ConfigError Settings :=
  match (Yaml.read? document).bind ofYaml? with
  | some s => .ok s
  | none => .error .yaml

end Settings

end GrammarGraph
