import GrammarGraph.Grammar.Basic

/-! # Walking over a graph

Which nodes can follow a node, and what a path does when it steps onto a node or back from it.
-/

namespace GrammarGraph

namespace Graph

/-- The start and the end of the root rule of a grammar. -/
def ofGrammar (g : Grammar) : Graph := ofRoot g.root g.ident

/-- Wire a fresh body between a new entry and a new exit, which leads to the end of the rule
instance. -/
def addBody (graph : Graph) (body : Body) (stop : NodeId) : NodeId × Graph :=
  let (entry, graph) := graph.add .junction
  let (exit, graph) := graph.add .junction
  (entry, (body.wire { entry, exit } graph).connect exit stop)

/-- The nodes that can follow a node in a context, preferred ones first, and the graph with what had
to be wired to find them. Nothing if a guard refuses, or a rule has no body. -/
def successors (graph : Graph) (g : Grammar) (id : NodeId) (ctx : Context) :
    Option (List NodeId) × Graph :=
  match graph.kind id with
  | .ruleStart rule _ stop =>
    match g.expand? rule with
    | none => (none, graph)
    | some expand =>
      let (entry, graph) := graph.addBody (expand ctx) stop
      (some [entry], graph)
  | .gate guard target => (if guard ctx then some [target] else none, graph)
  | .switch branches _ =>
    (some ((ctx.keyword?.bind fun key => branches.lookup key).toList), graph)
  | _ => (some (graph.wired id), graph)

end Graph

namespace Path

/-- Step onto a node. A rule start opens a scope, a rule end hides one, a hooked slot that takes a
token changes the innermost open scope. -/
def push (p : Path) (graph : Graph) (g : Grammar) (node : NodeId) (token : Option Token) : Path :=
  { elements := ⟨node, token⟩ :: p.elements
    scopes :=
      match graph.kind node, token with
      | .ruleStart rule _ _, _ => .active (g.ruleVars rule) :: p.scopes
      | .ruleEnd .., _ => .exited :: p.scopes
      | .slot _ _ (some hook), some t => Scope.update (hook.apply · t) 0 p.scopes
      | _, _ => p.scopes }

/-- Step back from the tip, taking back what stepping onto it did. -/
def pop (p : Path) (graph : Graph) : Option PathElement × Path :=
  match p.elements with
  | [] => (none, p)
  | e :: rest =>
    (some e,
      { elements := rest
        scopes :=
          match graph.kind e.node, e.token with
          | .ruleStart .., _ | .ruleEnd .., _ => p.scopes.tail
          | .slot _ _ (some hook), some t => Scope.update (hook.undo · t) 0 p.scopes
          | _, _ => p.scopes })

/-- Whether the node occurs, or an instance of the rule it starts is still open, among
elements since the last token; `closed` counts the instances of the rule that end
after the element looked at. -/
def revisitsIn (graph : Graph) (node : NodeId) : Nat → List PathElement → Bool
  | _, [] => false
  | closed, e :: rest =>
    if e.token.isSome then false
    else if e.node = node then true
    else
      match (graph.kind node).startedRule? with
      | none => revisitsIn graph node closed rest
      | some rule =>
        if (graph.kind e.node).endedRule? = some rule then revisitsIn graph node (closed + 1) rest
        else if (graph.kind e.node).startedRule? = some rule then
          match closed with
          | 0 => true
          | closed + 1 => revisitsIn graph node closed rest
        else revisitsIn graph node closed rest

/-- Whether stepping onto the node would return to a node, or reenter a rule that is still open,
without a token in between. -/
def revisits (p : Path) (graph : Graph) (node : NodeId) : Bool := revisitsIn graph node 0 p.elements

end Path

end GrammarGraph
