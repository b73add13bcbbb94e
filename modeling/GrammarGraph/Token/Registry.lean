import GrammarGraph.Regex.Reader
import GrammarGraph.Token.Basic
import GrammarGraph.Error

/-! # The registry of token types

Types are numbered from 1 in the order in which they are declared. At most one of them is the
literal.
-/

namespace GrammarGraph

/-- What reads the text of a pattern.  Where the text is no pattern, or too large, it gives none. -/
abbrev PatternReader := String → Option Pattern

structure Registry where
  types : List TokenType := []

namespace Registry

def size (r : Registry) : Nat := r.types.length

def get? (r : Registry) (id : Nat) : Option TokenType := r.types.find? (·.id == id)

def literal? (r : Registry) : Option TokenType := r.types.find? (·.kind.isLiteral)

/-- Declare a type and return it. -/
def add (r : Registry) (kind : TokenKind) : TokenType × Registry :=
  let t := ⟨r.size + 1, kind⟩
  (t, ⟨r.types ++ [t]⟩)

@[simp] theorem types_add (r : Registry) (kind : TokenKind) :
    (r.add kind).2.types = r.types ++ [⟨r.size + 1, kind⟩] := rfl

@[simp] theorem id_add (r : Registry) (kind : TokenKind) : (r.add kind).1.id = r.size + 1 := rfl

@[simp] theorem size_add (r : Registry) (kind : TokenKind) : (r.add kind).2.size = r.size + 1 := by
  simp [size]

/-- Types of the given kinds, numbered in their order. -/
def ofKinds (kinds : List TokenKind) : Registry := kinds.foldl (fun r kind => (r.add kind).2) {}

/-- The text given to the pattern reader for a word: the word's own pattern, tied to both ends. -/
def wholeText (pattern : String) : String := "^(?:" ++ pattern ++ ")$"

def readPattern (text : String) (read : PatternReader := Pattern.ofText?) :
    Except GrammarError Pattern :=
  match read text with
  | some p => .ok p
  | none => .error (.invalidPattern text)

/-- A word matched by the whole of a pattern and not refused by `allows`. -/
def addWord (r : Registry) (pattern : String) (allows : String → Bool := fun _ => true)
    (read : PatternReader := Pattern.ofText?) : Except GrammarError (TokenType × Registry) :=
  (readPattern (wholeText pattern) read).map fun p => r.add (.word pattern p allows)

def addKeyword (r : Registry) (text : String) : TokenType × Registry := r.add (.keyword text true)

/-- A keyword for which case does not count. -/
def addKeywordAnyCase (r : Registry) (text : String) : TokenType × Registry :=
  r.add (.keyword (Text.upper text) false)

/-- The literal type, declared on first use. -/
def addLiteral (r : Registry) : TokenType × Registry :=
  match r.literal? with
  | some t => (t, r)
  | none => r.add .literal

/-- Declare the literal type, which must not exist yet. -/
def addNewLiteral (r : Registry) : Except GrammarError (TokenType × Registry) :=
  if r.literal?.isSome then .error .secondLiteral else .ok r.addLiteral

def addLeading (r : Registry) (marker : String) : TokenType × Registry := r.add (.leading marker)

def addTrailing (r : Registry) (marker : String) : TokenType × Registry := r.add (.trailing marker)

def addSeparator (r : Registry) (marker : String) (tight : Bool := false) : TokenType × Registry :=
  r.add (.separator marker tight)

/-- A separator given by a pattern with no group, one or three. With three groups the middle one is
the separator and the outer ones the text around it; with one, that group is the separator; with
none, the whole match. -/
def addPatternSeparator (r : Registry) (text : String)
    (read : PatternReader := Pattern.ofText?) : Except GrammarError (TokenType × Registry) :=
  (readPattern text read).map fun p => r.add (.patternSeparator text p)

end Registry

/-- A word whose pattern is known to be well formed. -/
def TokenKind.validWord (pattern : String)
    (valid : (Pattern.ofText? (Registry.wholeText pattern)).isSome = true) : TokenKind :=
  .word pattern ((Pattern.ofText? (Registry.wholeText pattern)).get valid) fun _ => true

end GrammarGraph
