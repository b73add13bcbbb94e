import GrammarGraph.Settings

/-! # Definitions

A definition declares token types and rules. A rule is a list of branches, a branch a list of items,
and an item a target or a group of branches, with an optional identifier and multiplicity.
-/

namespace GrammarGraph

/-- What a token declaration declares. -/
inductive TokenForm where
  | keyword (text : String) (caseSensitive : Bool)
  | word (pattern : String)
  | leading (marker : String)
  | trailing (marker : String)
  | separator (marker : String) (isPattern whitespaceAllowed : Bool)
  | literal
deriving DecidableEq, Repr

structure TokenDecl where
  name : String
  form : TokenForm
deriving DecidableEq, Repr

/-- What an item that is no group stands for. -/
inductive Target where
  | token (name : String)
  | keyword (text : String)
  | rule (name : String)
deriving DecidableEq, Repr

inductive Item where
  | single (ident : Option String) (target : Target) (multiplicity : Option Multiplicity)
  | group (ident : Option String) (branches : List (List Item)) (multiplicity : Option Multiplicity)
deriving Repr

abbrev Branch := List Item

structure RuleDecl where
  name : String
  /-- Whether the rule is the root of the grammar. -/
  root : Bool
  branches : List Branch
deriving Repr

structure Definition where
  lineComment : Option String := none
  blockComment : Option BlockComment := none
  fullBacktracking : Bool := false
  tokens : List TokenDecl := []
  rules : List RuleDecl := []
deriving Repr

/-- The settings a definition asks for. -/
def Definition.settings (d : Definition) : Settings :=
  { lineComment := d.lineComment, blockComment := d.blockComment,
    fullBacktracking := d.fullBacktracking }

end GrammarGraph
