import GrammarGraph.Token.Kind

/-! # Splitting at separators

Separators are applied one after the other, each to the texts that those before it left. With
literals in use, a separator between an odd number of quotes on its left and an odd number on its
right becomes text again.
-/

namespace GrammarGraph

/-- A piece of a chunk: plain text, or an occurrence of a separator. -/
structure Span where
  text : List Char
  separator : Option TokenType

/-- Text around and at an occurrence of a separator. -/
structure Cut where
  left : List Char
  marker : List Char
  right : List Char
deriving DecidableEq, Repr

/-- An occurrence of a separator. A pattern with two groups, or more than three, marks nothing, and
an empty occurrence does not count. -/
def TokenKind.cut? (kind : TokenKind) (text : List Char) : Option Cut :=
  kind.split?.bind fun p =>
    (p.find text).bind fun m =>
      let cut : Option Cut :=
        if p.groups = 0 ∨ p.groups = 1 then
          (m.group? p.groups).map fun (start, stop) =>
            ⟨text.take start, (text.drop start).take (stop - start), text.drop stop⟩
        else if p.groups = 3 then
          (m.text? text 2).map fun marker =>
            ⟨(m.text? text 1).getD [], marker, (m.text? text 3).getD []⟩
        else none
      cut.filter fun c => !c.marker.isEmpty

namespace Span

def plain (text : List Char) : Span := ⟨text, none⟩

def isSeparator (s : Span) : Bool := s.separator.isSome

/-- A text as a span, unless it is empty. -/
def ofText : List Char → List Span
  | [] => []
  | c :: cs => [plain (c :: cs)]

/-- Cut a text at a separator until no piece contains it. Both sides of a cut are shorter than the
text, so as many levels as there are characters are enough. -/
def splitText (sep : TokenType) : Nat → List Char → List Span
  | 0, text => ofText text
  | _ + 1, [] => []
  | fuel + 1, c :: cs =>
    match sep.kind.cut? (c :: cs) with
    | none => [plain (c :: cs)]
    | some cut =>
      splitText sep fuel cut.left ++ ⟨cut.marker, some sep⟩ :: splitText sep fuel cut.right

/-- Cut the plain texts among the spans. -/
def splitAll (sep : TokenType) (spans : List Span) : List Span :=
  spans.flatMap fun s => if s.isSeparator then [s] else splitText sep s.text.length s.text

/-- The number of occurrences of a quote that do not directly follow an escape character. -/
def unescapedCount (quote : Char) (previous : Option Char) : List Char → Nat
  | [] => 0
  | c :: cs =>
    (if c == quote && previous != some escapeChar then 1 else 0) + unescapedCount quote (some c) cs

/-- Whether there is a quote that is odd on both sides. -/
def quoted (left right : List Char) : Bool :=
  ['\x27', '\x22'].any fun quote =>
    unescapedCount quote none left % 2 == 1 && unescapedCount quote none right % 2 == 1

/-- Turn quoted separators into text; `left` is the text before the spans. A
separator at the end stays. -/
def demote (left : List Char) : List Span → List Span
  | [] => []
  | [s] => [s]
  | s :: t :: rest =>
    let right := (t :: rest).flatMap Span.text
    (if quoted left right then plain s.text else s) :: demote (left ++ s.text) (t :: rest)

/-- Merge neighbouring texts. -/
def merge : List Span → List Span
  | [] => []
  | s :: rest =>
    match merge rest with
    | [] => [s]
    | t :: ts =>
      if s.isSeparator || t.isSeparator then s :: t :: ts else plain (s.text ++ t.text) :: ts

end Span

/-- Separators in the order in which they are applied. -/
structure Splitter where
  separators : List TokenType := []
  literalAware : Bool := false

namespace Splitter

/-- Append a separator; other types are ignored. -/
def add (s : Splitter) (t : TokenType) : Splitter :=
  if t.kind.isSeparator then { s with separators := s.separators ++ [t] } else s

def sortLongestFirst (s : Splitter) : Splitter :=
  { s with separators := longestFirst s.separators }

/-- The spans of a text, in its order. -/
def split (s : Splitter) (text : List Char) : List Span :=
  let spans := s.separators.foldl (fun spans sep => Span.splitAll sep spans) (Span.ofText text)
  Span.merge (if s.literalAware then Span.demote [] spans else spans)

end Splitter

end GrammarGraph
