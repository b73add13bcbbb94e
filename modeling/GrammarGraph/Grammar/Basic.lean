import GrammarGraph.Grammar.Body
import GrammarGraph.Lexer.Basic
import GrammarGraph.Tree.Basic

/-! # Grammars

A grammar is drafted by declaring rules, which gives them numbers, and defining them; once every
rule has a body it is complete.
-/

namespace GrammarGraph

/-- A named rule: its variables, the body that a visit wires in its context, and a
transformation of its trees. -/
structure Rule where
  name : String
  vars : Env := .empty
  expand : Option (Context → Body) := none
  transform : Option (Tree → Tree) := none

namespace Rule

def var (r : Rule) (name : String) (value : Value) : Rule :=
  { r with vars := r.vars.set name value }

def hasBody (r : Rule) : Bool := r.expand.isSome

end Rule

structure Grammar where
  types : Registry
  rules : List Rule
  root : RuleId
  /-- The id of the root of every tree. -/
  ident : Option String

namespace Grammar

def rule? (g : Grammar) (id : RuleId) : Option Rule := g.rules[id]?

def ruleName (g : Grammar) (id : RuleId) : String := ((g.rule? id).map (·.name)).getD ""

def ruleVars (g : Grammar) (id : RuleId) : Env := ((g.rule? id).map (·.vars)).getD .empty

def expand? (g : Grammar) (id : RuleId) : Option (Context → Body) := (g.rule? id).bind (·.expand)

def transform? (g : Grammar) (id : RuleId) : Option (Tree → Tree) := (g.rule? id).bind (·.transform)

/-- A lexer for the grammar's token types. -/
def lexer (g : Grammar) : Lexer := .ofTypes g.types.types

end Grammar

/-- A grammar in the making: the names declared, each with its rule once it is defined. -/
structure Draft where
  types : Registry
  rules : List (String × Option Rule) := []

namespace Draft

/-- Reserve a number for a rule defined later. -/
def declare (d : Draft) (name : String) : RuleId × Draft :=
  (d.rules.length, { d with rules := d.rules ++ [(name, none)] })

/-- Give a declared number its rule, which also settles the name. -/
def define (d : Draft) (id : RuleId) (r : Rule) : Except GrammarError Draft :=
  if id < d.rules.length then .ok { d with rules := d.rules.set id (r.name, some r) }
  else .error (.undeclaredRule id)

/-- Declare and define in one step. -/
def add (d : Draft) (r : Rule) : RuleId × Draft :=
  (d.rules.length, { d with rules := d.rules ++ [(r.name, some r)] })

/-- Every declared rule has to be defined and to have a body. -/
def complete (d : Draft) (root : RuleId) (ident : Option String) : Except GrammarError Grammar :=
  if root < d.rules.length then do
    let rules ← d.rules.mapM fun
      | (name, some r) => if r.hasBody then .ok r else .error (GrammarError.withoutBody name)
      | (name, none) => .error (.withoutBody name)
    return ⟨d.types, rules, root, ident⟩
  else .error (.undeclaredRule root)

end Draft

end GrammarGraph
