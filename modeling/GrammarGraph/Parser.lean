import GrammarGraph.Search.Basic
import GrammarGraph.Settings

/-! # Parsers

A parser is a grammar with a lexer and the choice of backtracking and tree. The bound on the
search is a number of iterations, and of levels in each, that no practical input reaches; a search
that it stops gives no answer.
-/

namespace GrammarGraph

structure Parser where
  grammar : Grammar
  lexer : Lexer
  fullBacktracking : Bool := false
  tree : TreeKind := .ast

namespace Parser

def ofGrammar (g : Grammar) : Parser := { grammar := g, lexer := g.lexer }

def configure (p : Parser) (s : Settings) : Parser :=
  { p with
    lexer := (p.lexer.setComments s.lineComment s.blockComment).setTabSize s.tabSize
    fullBacktracking := s.fullBacktracking
    tree := s.tree }

def withSettings (g : Grammar) (s : Settings) : Parser := (ofGrammar g).configure s

def start (p : Parser) (text : List Char) (source : Option String) : Run :=
  .start p.grammar p.lexer text source

/-- Search with the given bound. -/
def searchWithin (p : Parser) (fuel : Nat) (text : List Char) (source : Option String) :
    Option (Except ParseError Search) :=
  (p.start text source).iterate p.grammar p.lexer p.fullBacktracking fuel fuel

def treeOf (p : Parser) (s : Search) : Tree := .reduce p.grammar s.graph p.tree s.path

def parseWithin (p : Parser) (fuel : Nat) (text : List Char) (source : Option String) :
    Option (Except ParseError Tree) :=
  (p.searchWithin fuel text source).map (·.map p.treeOf)

/-- The tokens taken along the path that was found, in input order. -/
def derivationWithin (p : Parser) (fuel : Nat) (text : List Char) (source : Option String) :
    Option (Except ParseError (List Token)) :=
  (p.searchWithin fuel text source).map (·.map (·.path.tokens))

def bound : Nat := 4611686018427387904

def parse (p : Parser) (text : String) : Option (Except ParseError Tree) :=
  p.parseWithin bound text.toList none

/-- Parse the content of a file, whose name appears in errors. -/
def parseFile (p : Parser) (name content : String) : Option (Except ParseError Tree) :=
  p.parseWithin bound content.toList (some name)

def derivation (p : Parser) (text : String) : Option (Except ParseError (List Token)) :=
  p.derivationWithin bound text.toList none

end Parser

end GrammarGraph
