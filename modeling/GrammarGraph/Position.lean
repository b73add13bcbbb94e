/-! # Positions

Lines count from 1. A column counts the characters of its line up to and with the one referred to,
so the place before the first character of a text is line 1, column 0. Both are machine words.
-/

namespace GrammarGraph

structure Position where
  line : UInt64
  column : UInt64
deriving DecidableEq, Repr, Ord, Inhabited

namespace Position

def origin : Position := ⟨0, 0⟩

/-- The place before the first character. -/
def beforeText : Position := ⟨1, 0⟩

/-- Position of `c` when it follows the character at `p`. A linefeed sits in
column 0 of the next line. -/
def advance (tabSize : UInt64) (p : Position) (c : Char) : Position :=
  if c = '\n' then ⟨p.line + 1, 0⟩
  else if c = '\t' then ⟨p.line, p.column + tabSize⟩
  else ⟨p.line, p.column + 1⟩

/-- Position of the last character of a text that follows the character at `p`. -/
def advanceOver (tabSize : UInt64) (p : Position) (text : List Char) : Position :=
  text.foldl (advance tabSize) p

@[simp] theorem advanceOver_nil (t : UInt64) (p : Position) : p.advanceOver t [] = p := rfl

@[simp] theorem advanceOver_cons (t : UInt64) (p : Position) (c : Char) (cs : List Char) :
    p.advanceOver t (c :: cs) = (p.advance t c).advanceOver t cs := rfl

@[simp] theorem advanceOver_append (t : UInt64) (p : Position) (a b : List Char) :
    p.advanceOver t (a ++ b) = (p.advanceOver t a).advanceOver t b := by
  simp [advanceOver]

/-- Position of the first character of a text that follows `p`, or `p` if there is none. -/
def firstOf (tabSize : UInt64) (p : Position) : List Char → Position
  | [] => p
  | c :: _ => p.advance tabSize c

def render (p : Position) : String := p.line.toNat.repr ++ ":" ++ p.column.toNat.repr

end Position

/-- A place in an input, which may be a file. -/
structure Location where
  file : Option String
  position : Position
deriving DecidableEq, Repr

def Location.render (l : Location) : String :=
  match l.file with
  | some file => file ++ ":" ++ l.position.render
  | none => l.position.render

end GrammarGraph
