/-! # Scalars

Plain and quoted scalars may run over several lines. White space around a line break is dropped and
the break becomes a blank; of several breaks the first is dropped and the others are kept. Line and
paragraph separators are kept also as the first.

Main definitions: `scanPlain`, `scanSingle` and `scanDouble`, which read up to the end of a scalar.
-/

namespace GrammarGraph.Yaml

def isBlank (c : Char) : Bool := c == ' ' || c == '\t'

def isBreak (c : Char) : Bool := c == '\n' || c == '\u2028' || c == '\u2029'

def isWhite (c : Char) : Bool := isBlank c || isBreak c

/-- White space since the last character of a scalar, latest first: blanks on the same line, or line
breaks, the first of which may be hidden by a backslash. -/
inductive Gap where
  | blanks (cs : List Char)
  | breaks (first : Option Char) (more : List Char)
deriving DecidableEq, Repr

namespace Gap

def push (c : Char) : Gap → Gap
  | blanks cs => if isBreak c then breaks (some c) [] else blanks (c :: cs)
  | breaks first more => breaks first (if isBreak c then c :: more else more)

def isEmpty : Gap → Bool
  | blanks cs => cs.isEmpty
  | breaks .. => false

def isBroken : Gap → Bool
  | blanks _ => false
  | breaks .. => true

/-- What the scalar keeps of it, latest first. -/
def folded : Gap → List Char
  | blanks cs => cs
  | breaks (some '\n') [] => [' ']
  | breaks (some '\n') more => more
  | breaks first more => more ++ first.toList

@[simp] theorem folded_single_linefeed : (breaks (some '\n') []).folded = [' '] := rfl

@[simp] theorem folded_hidden : (breaks none []).folded = [] := rfl

end Gap

/-- Marks that brackets use. -/
def isFlowMark (c : Char) : Bool := [',', '[', ']', '\x7b', '\x7d'].contains c

/-- Marks that begin something other than a plain scalar. -/
def isIndicator (c : Char) : Bool :=
  isFlowMark c || ['#', '&', '*', '!', '|', '>', '\x27', '\x22', '%', '@', '\x60'].contains c

/-- Whether the next character, if any, is neither white space nor the end. -/
def goesOn (cs : List Char) : Bool := cs.head?.any fun c => !isWhite c

/-- A dash begins a plain scalar only with more text right after it, and so do a question mark and a
colon outside brackets. -/
def startsPlain (flow : Bool) : List Char → Bool
  | [] => false
  | c :: cs =>
    if c == '-' then goesOn cs
    else if c == '?' || c == ':' then !flow && goesOn cs
    else !isWhite c && !isIndicator c

/-- A plain scalar stops before a colon with nothing right after it and, inside
brackets, before their marks. -/
def stopsPlain (flow : Bool) : List Char → Bool
  | [] => true
  | c :: cs => (c == ':' && !goesOn cs) || (flow && isFlowMark c)

/-- What has been read, the column of what follows if that is on a later line, and what follows. -/
structure Scanned (α : Type) where
  value : α
  column : Option Nat
  rest : List Char

def Scanned.map {α β : Type} (f : α → β) (s : Scanned α) : Scanned β :=
  ⟨f s.value, s.column, s.rest⟩

/-- Read on in a plain scalar. Its later lines stand at column `limit` or to the right of it. -/
def scanPlain (flow : Bool) (limit : Nat) (text : List Char) (gap : Gap) (column : Nat) :
    List Char → Option (Scanned String)
  | [] => some ⟨.ofList text.reverse, if gap.isBroken then some column else none, []⟩
  | c :: cs =>
    if isBreak c then scanPlain flow limit text (gap.push c) 0 cs
    else if isBlank c then
      if gap.isBroken && column < limit && c == '\t' then none
      else scanPlain flow limit text (gap.push c) (column + 1) cs
    else if (!flow && gap.isBroken && column < limit) || (c == '#' && !gap.isEmpty) ||
      stopsPlain flow (c :: cs) then
      some ⟨.ofList text.reverse, if gap.isBroken then some column else none, c :: cs⟩
    else if flow && c == ':' && cs.head?.any fun d => isFlowMark d || d == '?' then none
    else scanPlain flow limit (c :: gap.folded ++ text) (.blanks []) (column + 1) cs

/-- Read on in single quotes; a quote inside is written twice. -/
def scanSingle (text : List Char) (gap : Gap) : List Char → Option (Scanned String)
  | [] => none
  | '\x27' :: '\x27' :: cs => scanSingle ('\x27' :: gap.folded ++ text) (.blanks []) cs
  | c :: cs =>
    if isWhite c then scanSingle text (gap.push c) cs
    else if c == '\x27' then some ⟨.ofList (gap.folded ++ text).reverse, none, cs⟩
    else scanSingle (c :: gap.folded ++ text) (.blanks []) cs

/-- Characters named by one letter after a backslash. -/
def escaped? (c : Char) : Option Char :=
  [('0', '\x00'), ('a', '\x07'), ('b', '\x08'), ('t', '\t'), ('\t', '\t'), ('n', '\n'), ('v',
      '\x0b'), ('f', '\x0c'), ('r', '\r'), ('e', '\x1b'), (' ', ' '), ('\x22', '\x22'), ('/', '/'),
    ('\\', '\\'), ('N', '\u0085'), ('_', '\u00a0'), ('L', '\u2028'), ('P', '\u2029')].lookup c

/-- How many hexadecimal digits follow a letter after a backslash. -/
def hexCount? (c : Char) : Option Nat := [('x', 2), ('u', 4), ('U', 8)].lookup c

def hexValue? (c : Char) : Option Nat :=
  if '0' ≤ c && c ≤ '9' then some (c.toNat - '0'.toNat)
  else if 'a' ≤ c && c ≤ 'f' then some (c.toNat - 'a'.toNat + 10)
  else if 'A' ≤ c && c ≤ 'F' then some (c.toNat - 'A'.toNat + 10)
  else none

/-- Where reading stands after a backslash: nowhere near one, right after it, or before so many
digits. -/
inductive Escape where
  | off
  | begun
  | hex (left : Nat) (value : Nat)
deriving DecidableEq, Repr

/-- Read on in double quotes. A backslash at the end of a line joins it with the next. -/
def scanDouble (text : List Char) (gap : Gap) (escape : Escape) :
    List Char → Option (Scanned String)
  | [] => none
  | c :: cs =>
    match escape with
    | .hex left value =>
      (hexValue? c).bind fun d =>
        let value := value * 16 + d
        if 1 < left then scanDouble text gap (.hex (left - 1) value) cs
        else if value.isValidChar then scanDouble (Char.ofNat value :: text) gap .off cs
        else none
    | .begun =>
      if isBreak c then scanDouble text (.breaks none []) .off cs
      else match escaped? c, hexCount? c with
        | some d, _ => scanDouble (d :: text) gap .off cs
        | none, some left => scanDouble text gap (.hex left 0) cs
        | none, none => none
    | .off =>
      if isWhite c then scanDouble text (gap.push c) .off cs
      else
        let text := gap.folded ++ text
        if c == '\x22' then some ⟨.ofList text.reverse, none, cs⟩
        else if c == '\\' then scanDouble text (.blanks []) .begun cs
        else scanDouble (c :: text) (.blanks []) .off cs

end GrammarGraph.Yaml
