import GrammarGraph.Lexer.Basic
import GrammarGraph.Lexer.Window

/-! # Streams of tokens

A stream reads its input in one of four modes. Blanks and comments end a chunk, except inside an
open literal, where they are ordinary characters and an escape character keeps a quote behind it
from closing the literal.
-/

namespace GrammarGraph

inductive Mode where
  | normal
  | blanks
  | lineComment
  | blockComment
deriving DecidableEq, Repr

/-- A chunk and the position just before its first character. -/
structure Chunk where
  text : List Char
  before : Position
deriving DecidableEq, Repr

/-- One pass of a lexer over one input. -/
structure Stream where
  window : Window
  mode : Mode := .normal
  /-- The characters of the chunk being collected, the latest first. -/
  collected : List Char := []
  chunkBefore : Position := .origin
  openQuote : Option Char := none
  /-- Tokens to hand out before reading on. -/
  pending : List Token := []
  source : Option String := none

namespace Stream

/-- Whether a marker stands at the front of what can be seen. -/
def startsWith (seen marker : List Char) : Bool := !marker.isEmpty && marker.isPrefixOf seen

/-- Read the next character into the chunk. -/
def collect (s : Stream) : Stream :=
  match s.window.next? with
  | none => s
  | some (c, window) =>
    { s with
      window, collected := c :: s.collected
      chunkBefore := if s.collected.isEmpty then s.window.position else s.chunkBefore }

def skip (s : Stream) (count : Nat) : Stream := { s with window := s.window.skip count }

/-- Hand out the collected chunk, if there is one. -/
def flush (s : Stream) : Option Chunk × Stream :=
  if s.collected.isEmpty then (none, s)
  else (some ⟨s.collected.reverse, s.chunkBefore⟩, { s with collected := [] })

/-- The mode that a comment marker outside literals switches to. -/
def commentMode? (lx : Lexer) (s : Stream) (seen : List Char) : Option Mode :=
  if s.openQuote.isSome then none
  else if lx.lineComment.any (startsWith seen ·) then some .lineComment
  else if lx.blockComment.any fun (start, _) => startsWith seen start then some .blockComment
  else none

/-- A quote among blanks opens a literal, or closes the one it opened. -/
def toggleQuote (c : Char) (openQuote : Option Char) : Option Char :=
  match openQuote with
  | none => some c
  | some q => if q = c then none else some q

/-- The mode to switch to before the character `c`, the first of those seen, if any. -/
def nextMode (lx : Lexer) (s : Stream) (c : Char) (seen : List Char) : Option Mode × Stream :=
  match s.mode with
  | .normal =>
    if s.openQuote.isNone && Text.isBlank c then (some .blanks, s) else (s.commentMode? lx seen, s)
  | .blanks =>
    if lx.literal.isSome && isQuote c then
      let s := { s with openQuote := toggleQuote c s.openQuote }
      ((s.commentMode? lx seen).or (some .normal), s)
    else if Text.isBlank c && s.openQuote.isNone then (none, s)
    else ((s.commentMode? lx seen).or (some .normal), s)
  | .lineComment => (if c = '\n' then some .normal else none, s)
  | .blockComment =>
    (if lx.blockComment.any fun (_, stop) => startsWith seen stop then some .normal else none, s)

/-- Length of what triggers a switch to a mode. -/
def triggerLength (lx : Lexer) : Mode → Nat
  | .normal | .blanks => 1
  | .lineComment => (lx.lineComment.map List.length).getD 0
  | .blockComment => (lx.blockComment.map fun (start, _) => start.length).getD 0

/-- Switch modes and read what triggered it. Leaving the normal mode ends the chunk. -/
def enter (lx : Lexer) (s : Stream) (mode : Mode) : Option Chunk × Stream :=
  let entered := { s with mode }
  match s.mode with
  | .normal => (entered.skip (triggerLength lx mode)).flush
  | .blanks =>
    if mode = .normal then (none, entered.collect) else (none, entered.skip (triggerLength lx mode))
  | .lineComment => (none, entered.skip 1)
  | .blockComment =>
    (none, entered.skip ((lx.blockComment.map fun (_, stop) => stop.length).getD 0))

/-- Read on in the same mode. In the normal mode the character goes into the chunk and may open or
close a literal; an escape character and the quote behind it go together. -/
def consume (lx : Lexer) (s : Stream) (c : Char) (seen : List Char) : Stream :=
  if s.mode ≠ .normal then s.skip 1
  else if lx.literal.isNone then s.collect
  else
    match s.openQuote with
    | none => ({ s with openQuote := if isQuote c then some c else none }).collect
    | some q =>
      if c = escapeChar && (seen[1]?).any isQuote then s.collect.collect
      else ({ s with openQuote := if c = q then none else some q }).collect

/-- One step before the character `c`. -/
def step (lx : Lexer) (s : Stream) (c : Char) (seen : List Char) : Option Chunk × Stream :=
  match s.nextMode lx c seen with
  | (some mode, s) => s.enter lx mode
  | (none, s) => (none, s.consume lx c seen)

/-- Read until a chunk is complete or the input ends. Every step reads something. -/
def readChunk (lx : Lexer) : Nat → Stream → Option Chunk × Stream
  | 0, s => s.flush
  | fuel + 1, s =>
    match s.window.lookahead with
    | [] => s.flush
    | c :: cs =>
      match s.step lx c (c :: cs) with
      | (some chunk, s) => (some chunk, s)
      | (none, s) => s.readChunk lx fuel

def nextChunk (lx : Lexer) (s : Stream) : Option Chunk × Stream :=
  s.readChunk lx s.window.rest.length

/-- The next token, or nothing at the end of the input. After an error the stream
goes on behind the chunk. -/
def next (lx : Lexer) (s : Stream) : Except ParseError (Option Token) × Stream :=
  match s.pending with
  | t :: ts => (.ok (some t), { s with pending := ts })
  | [] =>
    match s.nextChunk lx with
    | (none, s) => (.ok none, s)
    | (some chunk, s) =>
      match lx.classify chunk.text chunk.before with
      | .error unknown => (.error (unknown.toParseError s.source), s)
      | .ok [] => (.ok none, s)
      | .ok (t :: ts) => (.ok (some t), { s with pending := ts })

/-- Hand a token out again at the next request. -/
def pushBack (s : Stream) (t : Token) : Stream := { s with pending := t :: s.pending }

/-- Position of the last character read. -/
def position (s : Stream) : Position := s.window.position

/-- What a chunk contributes: its tokens, or the one error that spoils it. -/
def ofChunk (lx : Lexer) (source : Option String) (chunk : Chunk) :
    List (Except ParseError Token) :=
  match lx.classify chunk.text chunk.before with
  | .error unknown => [.error (unknown.toParseError source)]
  | .ok tokens => tokens.map .ok

/-- What follows the pending tokens, errors included. There are no more chunks than characters. -/
def drain (lx : Lexer) : Nat → Stream → List (Except ParseError Token) × Stream
  | 0, s => ([], s)
  | fuel + 1, s =>
    match s.nextChunk lx with
    | (none, s) => ([], s)
    | (some chunk, s) =>
      let (more, s') := s.drain lx fuel
      (ofChunk lx s.source chunk ++ more, s')

/-- All that is still to come, errors included. -/
def results (lx : Lexer) (s : Stream) : List (Except ParseError Token) × Stream :=
  let (more, s') := { s with pending := [] }.drain lx (s.window.rest.length + 1)
  (s.pending.map .ok ++ more, s')

end Stream

namespace Lexer

/-- Start reading a text. -/
def stream (lx : Lexer) (text : List Char) (source : Option String) : Stream :=
  { window := .ofText text lx.fillSize lx.tabSize, source }

/-- All tokens of a text, or the first error. -/
def tokenizeFrom (lx : Lexer) (text : List Char) (source : Option String) :
    Except ParseError (List Token) :=
  ((lx.stream text source).results lx).1.mapM id

def tokenize (lx : Lexer) (text : String) : Except ParseError (List Token) :=
  lx.tokenizeFrom text.toList none

end Lexer

end GrammarGraph
