import GrammarGraph.Regex.Match
import GrammarGraph.Text.Case

/-! # Token types

A token type recognizes texts. Two types are the same exactly when their numbers are equal.
-/

namespace GrammarGraph

/-- What a token type recognizes. -/
inductive TokenKind where
  /-- A text matched as a whole by a pattern; `allows` may refuse some of them. -/
  | word (text : String) (pattern : Pattern) (allows : String → Bool)
  /-- A fixed text, stored in upper case if case does not count. -/
  | keyword (text : String) (caseSensitive : Bool)
  /-- Quoted text. -/
  | literal
  /-- A marker glued to the left of other text. -/
  | leading (marker : String)
  /-- A marker glued to the right of other text. -/
  | trailing (marker : String)
  /-- A marker that splits text apart; a tight one needs text without white space on both sides. -/
  | separator (marker : String) (tight : Bool)
  /-- A pattern that splits text apart. -/
  | patternSeparator (text : String) (pattern : Pattern)

structure TokenType where
  id : Nat
  kind : TokenKind

/-- A quote that opens or closes a literal. -/
def isQuote (c : Char) : Bool := c == '\x27' || c == '\x22'

/-- The character that keeps a following quote from closing a literal. -/
def escapeChar : Char := '\\'

/-- At least two characters, the first a quote and the last the same quote. -/
def isLiteralText : List Char → Bool
  | [] => false
  | c :: cs => isQuote c && cs.getLast? == some c

namespace Pattern

def nonBlanks : Regex := .plus true (.set (.compl .space))

def anything : Regex := .star true (.set .all)

/-- A marker and the text right of it. -/
def leading (marker : List Char) : Pattern :=
  ⟨.ofList [.look .textStart, .group 1 (.literal marker), .group 2 nonBlanks, .look .textEnd], 2⟩

/-- The text left of a marker and the marker. -/
def trailing (marker : List Char) : Pattern :=
  ⟨.ofList [.look .textStart, .group 1 nonBlanks, .group 2 (.literal marker), .look .textEnd], 2⟩

/-- The text before the last occurrence of a marker, the marker, and the text after it. -/
def splitting (marker : List Char) : Pattern :=
  ⟨.ofList [.look .textStart, .group 1 anything, .group 2 (.literal marker), .group 3 anything,
      .look .textEnd], 3⟩

/-- A marker between two texts without white space. -/
def between (marker : List Char) : Pattern :=
  ⟨.ofList [.look .textStart, .group 1 nonBlanks, .group 2 (.literal marker), .group 3 nonBlanks,
      .look .textEnd], 3⟩

end Pattern

namespace TokenKind

def isWord : TokenKind → Bool
  | word .. => true
  | _ => false

def isKeyword : TokenKind → Bool
  | keyword .. => true
  | _ => false

def isLiteral : TokenKind → Bool
  | literal => true
  | _ => false

def isLeading : TokenKind → Bool
  | leading _ => true
  | _ => false

def isTrailing : TokenKind → Bool
  | trailing _ => true
  | _ => false

def isSeparator : TokenKind → Bool
  | separator .. | patternSeparator .. => true
  | _ => false

/-- The stored text of a keyword. -/
def keyword? : TokenKind → Option String
  | keyword text _ => some text
  | _ => none

/-- The marker, or the text of a pattern that separates. -/
def marker? : TokenKind → Option String
  | leading marker | trailing marker | separator marker _ | patternSeparator marker _ => some marker
  | _ => none

/-- Length by which markers are ordered, longest first. -/
def precedence : TokenKind → Nat
  | word text _ _ => text.length
  | keyword .. | literal => 0
  | leading marker | trailing marker | separator marker _ |
      patternSeparator marker _ => marker.length

/-- The pattern that cuts a separator out of a text. -/
def split? : TokenKind → Option Pattern
  | separator marker _ => some (.splitting marker.toList)
  | patternSeparator _ pattern => some pattern
  | _ => none

/-- The pattern that decides whether a whole text is a use of the separator. -/
def strict? : TokenKind → Option Pattern
  | separator marker tight =>
    some (if tight then .between marker.toList else .splitting marker.toList)
  | patternSeparator _ pattern => some pattern
  | _ => none

/-- Whether a text is recognized as a whole. -/
def accepts (kind : TokenKind) (text : List Char) : Bool :=
  match kind with
  | word _ pattern allows => pattern.accepts text && allows (.ofList text)
  | keyword stored true => String.ofList text == stored
  | keyword stored false => Text.upper (.ofList text) == stored
  | literal => isLiteralText text
  | leading marker => (Pattern.leading marker.toList).accepts text
  | trailing marker => (Pattern.trailing marker.toList).accepts text
  | separator .. | patternSeparator .. => kind.strict?.any (·.accepts text)

/-- The text that a token made from an accepted text carries: for markers the marker alone. -/
def tokenText (kind : TokenKind) (text : List Char) : List Char :=
  match kind with
  | leading marker | trailing marker => marker.toList
  | separator marker _ | patternSeparator marker _ =>
    match kind.strict?.bind (·.find text) with
    | some m => ((m.text? text 2).or (m.text? text 0)).getD marker.toList
    | none => marker.toList
  | _ => text

/-- The text right of a leading marker. -/
def remainingRight? (kind : TokenKind) (text : List Char) : Option (List Char) :=
  match kind with
  | leading marker => ((Pattern.leading marker.toList).find text).bind (·.text? text 2)
  | _ => none

/-- The text left of a trailing marker. -/
def remainingLeft? (kind : TokenKind) (text : List Char) : Option (List Char) :=
  match kind with
  | trailing marker => ((Pattern.trailing marker.toList).find text).bind (·.text? text 1)
  | _ => none

/-- What the first match of a separator captures: the whole match and then its groups. -/
def splitGroups? (kind : TokenKind) (text : List Char) : Option (List (Option (List Char))) :=
  kind.split?.bind fun p => (p.find text).map fun m =>
    (List.range (p.groups + 1)).map (m.text? text)

def render : TokenKind → String
  | word text _ _ => "Word(" ++ text ++ ")"
  | keyword text true => "Keyword(" ++ text ++ ")"
  | keyword text false => "Keyword(" ++ text ++ ", insensitive)"
  | literal => "Literal"
  | leading marker => "Prefix(" ++ marker ++ ")"
  | trailing marker => "Postfix(" ++ marker ++ ")"
  | separator marker _ | patternSeparator marker _ => "Separator(" ++ marker ++ ")"

end TokenKind

def TokenType.render (t : TokenType) : String := "#" ++ t.id.repr ++ " " ++ t.kind.render

/-- Put a type behind those of the same or a greater length. -/
def insertByLength (t : TokenType) : List TokenType → List TokenType
  | [] => [t]
  | u :: us =>
    if u.kind.precedence < t.kind.precedence then t :: u :: us else u :: insertByLength t us

/-- Longest first; equals keep their order. -/
def longestFirst (types : List TokenType) : List TokenType :=
  types.foldl (fun sorted t => insertByLength t sorted) []

end GrammarGraph
