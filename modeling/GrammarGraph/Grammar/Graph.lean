import GrammarGraph.Grammar.Path

/-! # Graphs

Nodes live in an arena and are numbered in the order in which they are added. The first two, the end
and the start of the root rule, are never released.
-/

namespace GrammarGraph

inductive NodeKind where
  /-- Entry of a rule instance; it is left into a body wired afresh. -/
  | ruleStart (rule : RuleId) (ident : Option String) (stop : NodeId)
  | ruleEnd (rule : RuleId) (ident : Option String)
  /-- Takes one token of the given type. -/
  | slot (type : TokenType) (ident : Option String) (hook : Option Hook)
  | junction
  /-- Is left to `target` while the guard holds. -/
  | gate (guard : Context → Bool) (target : NodeId)
  /-- Is left to the branch of the coming keyword; all branches lead to `target`. -/
  | switch (branches : List (String × NodeId)) (target : NodeId)

namespace NodeKind

def isSlot : NodeKind → Bool
  | slot .. => true
  | _ => false

def isRuleEnd : NodeKind → Bool
  | ruleEnd .. => true
  | _ => false

/-- The rule that the node enters. -/
def startedRule? : NodeKind → Option RuleId
  | ruleStart rule _ _ => some rule
  | _ => none

/-- The rule that the node leaves. -/
def endedRule? : NodeKind → Option RuleId
  | ruleEnd rule _ => some rule
  | _ => none

/-- Identifier of a rule boundary or slot. -/
def ident? : NodeKind → Option String
  | ruleStart _ ident _ | ruleEnd _ ident | slot _ ident _ => ident
  | _ => none

end NodeKind

/-- A node with its wired successors, preferred ones first. -/
structure Node where
  kind : NodeKind
  successors : List NodeId := []

structure Graph where
  nodes : Array Node := #[]

namespace Graph

def size (g : Graph) : Nat := g.nodes.size

/-- The kind of a node; a number without a node counts as a junction that leads nowhere. -/
def kind (g : Graph) (id : NodeId) : NodeKind :=
  match g.nodes[id]? with
  | some n => n.kind
  | none => .junction

def wired (g : Graph) (id : NodeId) : List NodeId :=
  match g.nodes[id]? with
  | some n => n.successors
  | none => []

def add (g : Graph) (kind : NodeKind) : NodeId × Graph := (g.size, ⟨g.nodes.push { kind }⟩)

@[simp] theorem fst_add (g : Graph) (kind : NodeKind) : (g.add kind).1 = g.size := rfl

@[simp] theorem size_add (g : Graph) (kind : NodeKind) : (g.add kind).2.size = g.size + 1 := by
  simp [add, size]

/-- Add an edge behind the older ones, unless it exists. -/
def connect (g : Graph) (source target : NodeId) : Graph :=
  ⟨g.nodes.modify source fun n =>
    if n.successors.contains target then n else { n with successors := n.successors ++ [target] }⟩

@[simp] theorem size_connect (g : Graph) (a b : NodeId) : (g.connect a b).size = g.size := by
  simp [connect, size]

/-- Release the nodes added since the graph had the given size, but never the first two. -/
def truncate (g : Graph) (size : Nat) : Graph := ⟨g.nodes.shrink (max size 2)⟩

theorem size_truncate (g : Graph) (n : Nat) : (g.truncate n).size = min (max n 2) g.size := by
  simp [truncate, size]

/-- The start and end of the root rule, and nothing else. -/
def ofRoot (rule : RuleId) (ident : Option String) : Graph :=
  ⟨#[{ kind := .ruleEnd rule ident }, { kind := .ruleStart rule ident 0 }]⟩

@[simp] theorem size_ofRoot (r : RuleId) (i : Option String) : (ofRoot r i).size = 2 := rfl

/-- The start of the root rule. -/
def root : NodeId := 1

end Graph

end GrammarGraph
