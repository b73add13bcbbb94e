import GrammarGraph.Lexer.Span
import GrammarGraph.Token.Registry

/-! # Classifying chunks

A chunk is split at separators and each text between them is classified: as a literal, by a leading
or trailing marker with the rest classified on its own, or by a keyword and all words that match.
-/

namespace GrammarGraph

/-- What to recognize in an input and which comments to skip. -/
structure Lexer where
  splitter : Splitter := {}
  literal : Option TokenType := none
  /-- Types with a leading marker, longest first. -/
  leading : List TokenType := []
  /-- Types with a trailing marker, longest first. -/
  trailing : List TokenType := []
  keywords : List TokenType := []
  words : List TokenType := []
  lineComment : Option (List Char) := none
  blockComment : Option (List Char × List Char) := none
  tabSize : UInt64 := 1

/-- A text that no type recognizes. -/
structure UnknownSpan where
  text : List Char
  position : Position
deriving DecidableEq, Repr

def UnknownSpan.toParseError (u : UnknownSpan) (source : Option String) : ParseError :=
  .unknownToken (.ofList u.text) ⟨source, u.position⟩

namespace Lexer

def add (lx : Lexer) (t : TokenType) : Lexer :=
  match t.kind with
  | .word .. => { lx with words := lx.words ++ [t] }
  | .keyword .. => { lx with keywords := lx.keywords ++ [t] }
  | .literal => { lx with literal := some t, splitter := { lx.splitter with literalAware := true } }
  | .leading _ => { lx with leading := insertByLength t lx.leading }
  | .trailing _ => { lx with trailing := insertByLength t lx.trailing }
  | .separator .. | .patternSeparator .. =>
    { lx with
      splitter := { lx.splitter with
        separators := insertByLength t lx.splitter.separators } }

/-- A lexer for all types of a registry. -/
def ofTypes (types : List TokenType) : Lexer := types.foldl add {}

def setLineComment (lx : Lexer) (marker : String) : Lexer :=
  { lx with lineComment := some marker.toList }

def setBlockComment (lx : Lexer) (start stop : String) : Lexer :=
  { lx with blockComment := some (start.toList, stop.toList) }

def setTabSize (lx : Lexer) (tabSize : UInt64) : Lexer := { lx with tabSize := max tabSize 1 }

/-- How far to look ahead for comment markers and escaped quotes. -/
def fillSize (lx : Lexer) : Nat :=
  let line := (lx.lineComment.map List.length).getD 0
  let (start, stop) := (lx.blockComment.map fun (a, b) => (a.length, b.length)).getD (0, 0)
  max (max (max 2 line) start) stop

def token (lx : Lexer) (text : List Char) (types : List TokenType) (before : Position) : Token :=
  ⟨.ofList text, types, before.firstOf lx.tabSize text, before.advanceOver lx.tabSize text⟩

/-- The keyword with this text, or else the first that matches it in upper case. -/
def keyword? (lx : Lexer) (text : List Char) : Option TokenType :=
  let s := String.ofList text
  (lx.keywords.find? fun t => t.kind.keyword? == some s).or
    (lx.keywords.find? fun t => t.kind.keyword? == some (Text.upper s) && t.kind.accepts text)

/-- The types of a text without markers: at most one keyword, then all words. -/
def plainTypes (lx : Lexer) (text : List Char) : List TokenType :=
  (lx.keyword? text).toList ++ lx.words.filter (·.kind.accepts text)

/-- Classify a text without separators; `within` classifies what a marker is glued to. -/
def classifySpan (lx : Lexer) (within : List Char → Position → Except UnknownSpan (List Token))
    (text : List Char) (before : Position) : Except UnknownSpan (List Token) :=
  match lx.literal.filter fun _ => isLiteralText text with
  | some t => .ok [lx.token text [t] before]
  | none =>
    match lx.leading.findSome? fun t => (t.kind.remainingRight? text).map (t, ·) with
    | some (t, rest) =>
      let marker := text.take (text.length - rest.length)
      (within rest (before.advanceOver lx.tabSize marker)).map fun tokens =>
        lx.token marker [t] before :: tokens
    | none =>
      match lx.trailing.findSome? fun t => (t.kind.remainingLeft? text).map (t, ·) with
      | some (t, rest) =>
        (within rest before).map fun tokens =>
          tokens ++ [lx.token (text.drop rest.length) [t] (before.advanceOver lx.tabSize rest)]
      | none =>
        match lx.plainTypes text with
        | [] => .error ⟨text, before.firstOf lx.tabSize text⟩
        | types => .ok [lx.token text types before]

/-- Classify spans one after the other; `before` is the position just before the first. -/
def classifySpans (lx : Lexer) (within : List Char → Position → Except UnknownSpan (List Token)) :
    List Span → Position → Except UnknownSpan (List Token)
  | [], _ => .ok []
  | s :: rest, before => do
    let tokens ← match s.separator with
      | some sep => .ok [lx.token s.text [sep] before]
      | none => lx.classifySpan within s.text before
    let more ← classifySpans lx within rest (before.advanceOver lx.tabSize s.text)
    return tokens ++ more

/-- Classify a text whose first character follows `before`. Each level strips a marker, and below
the last one nothing is classified. -/
def classifyText (lx : Lexer) : Nat → List Char → Position → Except UnknownSpan (List Token)
  | 0, _, _ => .ok []
  | fuel + 1, text, before =>
    lx.classifySpans (lx.classifyText fuel) (lx.splitter.split text) before

/-- Levels beyond those of a text that gets shorter at each of them, far more than there is room
for. Only a pattern that captures a character twice makes a text longer. -/
def reserve : Nat := 4611686018427387904

/-- The tokens of a chunk; one unknown text spoils the whole chunk. -/
def classify (lx : Lexer) (chunk : List Char) (before : Position) :
    Except UnknownSpan (List Token) :=
  lx.classifyText (reserve + chunk.length + 1) chunk before

end Lexer

end GrammarGraph
