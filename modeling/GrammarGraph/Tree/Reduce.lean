import GrammarGraph.Search.Walk

/-! # From paths to trees -/

namespace GrammarGraph

inductive TreeKind where
  /-- Each rule's own tree transformation applied. -/
  | ast
  /-- One node for each rule instance. -/
  | parseTree
deriving DecidableEq, Repr

namespace Tree

/-- Apply the rule's transformation, if it has one, to its finished node; the id stays. -/
def transformed (g : Grammar) (kind : TreeKind) (rule : RuleId) (t : Tree) : Tree :=
  match kind, g.transform? rule with
  | .ast, some f => { f t with id := t.id }
  | _, _ => t

/-- Fold the rest of a path; the nodes still open come innermost first. A rule start opens a
node, a rule end transforms it and hands it to the node around it, and the end of the
outermost node ends the walk. -/
def reduceFrom (g : Grammar) (graph : Graph) (kind : TreeKind) : List PathElement → List Tree → Tree
  | [], opened => opened.headD (plain "" "")
  | e :: rest, opened =>
    match graph.kind e.node with
    | .ruleStart rule ident _ =>
      let text := (e.token.map (·.text)).getD ""
      reduceFrom g graph kind rest (⟨g.ruleName rule, text, ident.getD "", [], none⟩ :: opened)
    | .ruleEnd rule _ =>
      match opened with
      | [] => reduceFrom g graph kind rest []
      | [t] => t.transformed g kind rule
      | t :: parent :: outer =>
        reduceFrom g graph kind rest (parent.addChild (t.transformed g kind rule) :: outer)
    | .slot _ ident _ =>
      match opened, e.token with
      | node :: outer, some token =>
        reduceFrom g graph kind rest (node.addChild (.ofToken token (ident.getD "")) :: outer)
      | opened, _ => reduceFrom g graph kind rest opened
    | _ => reduceFrom g graph kind rest opened

/-- The tree of a complete path. -/
def reduce (g : Grammar) (graph : Graph) (kind : TreeKind) (path : Path) : Tree :=
  reduceFrom g graph kind path.toList []

end Tree

end GrammarGraph
