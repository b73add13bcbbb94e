import GrammarGraph.Error
import GrammarGraph.Grammar.Env

/-! # Paths

A path is the stack of visited nodes, each with the token it took, if any, together with a stack of
scopes: one for each rule instance entered, and a marker for each one left. The tip and the
innermost scope come first.
-/

namespace GrammarGraph

/-- Index of a node in its graph. -/
abbrev NodeId := Nat

/-- Index of a rule in its grammar. -/
abbrev RuleId := Nat

structure PathElement where
  node : NodeId
  token : Option Token

inductive Scope where
  | active (env : Env)
  | exited
deriving DecidableEq, Repr

namespace Scope

/-- Look a name up, innermost first; each marker hides one scope further out. -/
def lookup (name : String) : Nat → List Scope → Option Value
  | _, [] => none
  | hidden, exited :: rest => lookup name (hidden + 1) rest
  | hidden + 1, active _ :: rest => lookup name hidden rest
  | 0, active env :: rest => (env.get? name).or (lookup name 0 rest)

/-- Change the innermost scope that is not hidden. -/
def update (f : Env → Env) : Nat → List Scope → List Scope
  | _, [] => []
  | hidden, exited :: rest => exited :: update f (hidden + 1) rest
  | hidden + 1, active env :: rest => active env :: update f hidden rest
  | 0, active env :: rest => active (f env) :: rest

end Scope

structure Path where
  elements : List PathElement := []
  scopes : List Scope := []

namespace Path

def length (p : Path) : Nat := p.elements.length

def isEmpty (p : Path) : Bool := p.elements.isEmpty

def tip? (p : Path) : Option PathElement := p.elements.head?

/-- The elements from the first to the tip. -/
def toList (p : Path) : List PathElement := p.elements.reverse

/-- The element at an index; negative indices count from the tip. -/
def element (p : Path) (index : Int) : Except GrammarError PathElement :=
  let resolved := if index < 0 then p.length + index else index
  match (if resolved < 0 then none else p.toList[resolved.toNat]?) with
  | some e => .ok e
  | none => .error (.pathIndex index)

/-- Tokens taken along the path, in input order. -/
def tokens (p : Path) : List Token := p.toList.filterMap (·.token)

/-- Texts of the tokens taken, joined by dots. -/
def tokenTrail (p : Path) : String := ".".intercalate (p.tokens.map (·.text))

/-- Node numbers, joined by colons. -/
def nodeTrail (p : Path) : String := ":".intercalate (p.toList.map (·.node.repr))

/-- The value of a variable in the innermost open rule instance that defines it. -/
def var? (p : Path) (name : String) : Option Value := Scope.lookup name 0 p.scopes

end Path

/-- What a node can see when it is left: the path so far and the token to be matched, if any. -/
structure Context where
  path : Path
  token : Option Token

namespace Context

def var? (c : Context) (name : String) : Option Value := c.path.var? name

/-- The stored text of the first keyword type of the token. -/
def keyword? (c : Context) : Option String := c.token.bind (·.keyword?)

end Context

end GrammarGraph
