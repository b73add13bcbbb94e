import GrammarGraph.Token.Kind
import GrammarGraph.Position

/-! # Tokens -/

namespace GrammarGraph

/-- A classified piece of input, with the positions of its first and last character. The types stand
in the order in which they were found. -/
structure Token where
  text : String
  types : List TokenType
  start : Position
  stop : Position

namespace Token

def hasType (t : Token) (id : Nat) : Bool := t.types.any (·.id == id)

/-- The first keyword type. -/
def keywordType? (t : Token) : Option TokenType := t.types.find? (·.kind.isKeyword)

/-- Stored text of the first keyword type. -/
def keyword? (t : Token) : Option String := t.keywordType?.bind (·.kind.keyword?)

/-- Equal text, positions and type numbers. -/
def same (a b : Token) : Bool :=
  a.text == b.text && a.start == b.start && a.stop == b.stop &&
    a.types.map (·.id) == b.types.map (·.id)

@[simp] theorem same_self (a : Token) : a.same a = true := by simp [same]

def render (t : Token) : String := "'" ++ t.text ++ "' at " ++ t.start.render

end Token

/-- The token that a single type makes of a text it accepts, at no place in particular. -/
def TokenType.create? (t : TokenType) (text : List Char) : Option Token :=
  if t.kind.accepts text then some ⟨.ofList (t.kind.tokenText text), [t], .origin,
    .origin⟩ else none

end GrammarGraph
