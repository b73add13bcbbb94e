import GrammarGraph.Position

/-! # What can go wrong

Mistakes in declaring a grammar, inputs that cannot be parsed, definitions that denote no grammar
and settings that cannot be read. A branch that the search gives up is none of these.
-/

namespace GrammarGraph

inductive GrammarError where
  | invalidPattern (pattern : String)
  | secondLiteral
  | withoutBody (rule : String)
  | pathIndex (index : Int)
  | undeclaredRule (index : Nat)
deriving DecidableEq, Repr

def GrammarError.message : GrammarError → String
  | invalidPattern pattern => "invalid token pattern `" ++ pattern ++ "`"
  | secondLiteral => "a literal token type is already registered"
  | withoutBody rule => "rule `" ++ rule ++ "` has no body and cannot be instantiated"
  | pathIndex index => "invalid path element index " ++ toString index
  | undeclaredRule index => "rule #" ++ index.repr ++ " is referenced but was never declared"

/-- A file that could not be read, with the reason the system gives. -/
structure FileError where
  path : String
  reason : String
deriving DecidableEq, Repr

def FileError.message (e : FileError) : String := "cannot read " ++ e.path ++ ": " ++ e.reason

inductive ParseError where
  | unknownToken (text : String) (location : Location)
  | unexpectedToken (text : String) (location : Location)
  | unexpectedEnd (location : Location)
  | file (error : FileError)
deriving DecidableEq, Repr

namespace ParseError

def message : ParseError → String
  | unknownToken text location => "unknown token '" ++ text ++ "' at " ++ location.render
  | unexpectedToken text location => "unexpected token '" ++ text ++ "' at " ++ location.render
  | unexpectedEnd location => "unexpected end of input at " ++ location.render
  | file error => error.message

/-- The place in the input that the error is about. -/
def location? : ParseError → Option Location
  | unknownToken _ location | unexpectedToken _ location | unexpectedEnd location => some location
  | file _ => none

/-- The offending text, if there is one. -/
def text : ParseError → String
  | unknownToken text _ | unexpectedToken text _ => text
  | unexpectedEnd _ | file _ => ""

end ParseError

inductive DefinitionError where
  | parse (error : ParseError)
  | grammar (error : GrammarError)
  | unknownToken (name : String)
  | unknownRule (name : String)
  | missingRoot
  | multipleRoots (first second : String)
  | duplicate (name : String)
  | malformed (what : String)
deriving DecidableEq, Repr

def DefinitionError.message : DefinitionError → String
  | parse error => error.message
  | grammar error => error.message
  | unknownToken name => "token type `" ++ name ++ "` is not defined"
  | unknownRule name => "rule `" ++ name ++ "` is not defined"
  | missingRoot => "no rule is marked @grammar"
  | multipleRoots first second =>
    "rules `" ++ first ++ "` and `" ++ second ++ "` are both marked @grammar"
  | duplicate name => "`" ++ name ++ "` is defined more than once"
  | malformed what => "malformed definition tree near `" ++ what ++ "`"

inductive ConfigError where
  | file (error : FileError)
  | yaml
  | grammar (error : GrammarError)
deriving DecidableEq, Repr

def ConfigError.message : ConfigError → String
  | file error => error.message
  | yaml => "invalid configuration"
  | grammar error => error.message

end GrammarGraph
