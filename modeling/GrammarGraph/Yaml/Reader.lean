import GrammarGraph.Yaml.Basic
import GrammarGraph.Yaml.Scalar

/-! # Reading documents

Sequences and mappings are written in brackets, or in block form, where the column of their first
character tells which lines belong to them. Scalars are plain or quoted. Anchors, tags, block
scalars, explicit keys and document marks are not part of the format.

Main definition: `Yaml.read?`, which gives nothing for a malformed document.
-/

namespace GrammarGraph.Yaml

/-- The next content: its column and the text from there on, which is empty at the end. -/
structure Line where
  column : Nat
  text : List Char
deriving DecidableEq, Repr

/-- Skip blank lines and comments to the next content; a tab counts as content. -/
def seek (comment : Bool) (column : Nat) : List Char → Line
  | [] => ⟨column, []⟩
  | c :: cs =>
    if isBreak c then seek false 0 cs
    else if comment then seek true column cs
    else if c == ' ' then seek false (column + 1) cs
    else if c == '#' then seek true column cs
    else ⟨column, c :: cs⟩

/-- Go to the next line, when only blanks and a comment are left on this one. -/
def endLine : List Char → Option Line
  | [] => some ⟨0, []⟩
  | c :: cs =>
    if isBreak c then some (seek false 0 cs)
    else if isBlank c then endLine cs
    else if c == '#' then some (seek true 0 cs)
    else none

/-- The line after a value. -/
def Scanned.line? {α : Type} (s : Scanned α) : Option Line :=
  match s.column with
  | some column => some (seek false column s.rest)
  | none => endLine s.rest

/-- Skip white space and comments inside brackets. -/
def skipFlow (comment : Bool) : List Char → List Char
  | [] => []
  | c :: cs =>
    if isBreak c then skipFlow false cs
    else if comment then skipFlow true cs
    else if isBlank c then skipFlow false cs
    else if c == '#' then skipFlow true cs
    else c :: cs

/-- What follows the colon, if the text before `rest` is a key. A key stands on one line and has at
most 1024 characters. -/
def afterKey? (flow : Bool) (text rest : List Char) : Option (List Char) :=
  match rest.dropWhile isBlank with
  | ':' :: after =>
    let key := text.take (text.length - (after.length + 1))
    if (flow || !goesOn after) && key.length ≤ 1024 && !key.any isBreak then some after else none
  | _ => none

/-- A quoted scalar. -/
def quoted? : List Char → Option (Scanned Yaml)
  | '\x27' :: cs => (scanSingle [] (.blanks []) cs).map (·.map .quoted)
  | '\x22' :: cs => (scanDouble [] (.blanks []) .off cs).map (·.map .quoted)
  | _ => none

def plain? (flow : Bool) (limit : Nat) (text : List Char) : Option (Scanned Yaml) :=
  if startsPlain flow text then (scanPlain flow limit [] (.blanks []) 0 text).map
    (·.map .plain) else none

mutual

/-- A value inside brackets. -/
def flowNode : Nat → Nat → List Char → Option (Yaml × List Char)
  | 0, _, _ => none
  | fuel + 1, limit, '[' :: cs =>
    (flowItems fuel limit cs).map fun (items, rest) => (.sequence items, rest)
  | fuel + 1, limit, '\x7b' :: cs =>
    (flowEntries fuel limit cs).map fun (entries, rest) => (.mapping entries, rest)
  | _ + 1, limit, text =>
    ((quoted? text).or (plain? true limit text)).map fun s => (s.value, s.rest)

/-- A value after a colon inside brackets, where it may be left out. -/
def flowValue : Nat → Nat → List Char → Option (Yaml × List Char)
  | 0, _, _ => none
  | fuel + 1, limit, cs =>
    match skipFlow false cs with
    | ',' :: rest => some (missing, ',' :: rest)
    | ']' :: rest => some (missing, ']' :: rest)
    | '\x7d' :: rest => some (missing, '\x7d' :: rest)
    | text => flowNode fuel limit text

/-- The rest of a sequence in brackets. A key with its value is a mapping with one entry. -/
def flowItems : Nat → Nat → List Char → Option (List Yaml × List Char)
  | 0, _, _ => none
  | fuel + 1, limit, cs =>
    match skipFlow false cs with
    | ']' :: rest => some ([], rest)
    | text => do
      let (node, rest) ← flowNode fuel limit text
      let (item, rest) ← match afterKey? true text rest with
        | some after =>
          (flowValue fuel limit after).map fun (v, rest) => (.mapping [(node, v)], rest)
        | none => some (node, rest)
      match skipFlow false rest with
      | ',' :: rest => (flowItems fuel limit rest).map fun (items, rest) => (item :: items, rest)
      | ']' :: rest => some ([item], rest)
      | _ => none

/-- The rest of a mapping in brackets. -/
def flowEntries : Nat → Nat → List Char → Option (List (Yaml × Yaml) × List Char)
  | 0, _, _ => none
  | fuel + 1, limit, cs =>
    match skipFlow false cs with
    | '\x7d' :: rest => some ([], rest)
    | text => do
      let (node, rest) ← flowNode fuel limit text
      let (value, rest) ← match afterKey? true text rest with
        | some after => flowValue fuel limit after
        | none => some (missing, rest)
      match skipFlow false rest with
      | ',' :: rest =>
        (flowEntries fuel limit rest).map fun (entries, rest) => ((node, value) :: entries, rest)
      | '\x7d' :: rest => some ([(node, value)], rest)
      | _ => none

end

/-- A value that needs no lines of its own. -/
def inline? (fuel limit : Nat) (text : List Char) : Option (Scanned Yaml) :=
  match text with
  | '[' :: _ | '\x7b' :: _ => (flowNode fuel limit text).map fun (y, rest) => ⟨y, none, rest⟩
  | _ => (quoted? text).or (plain? false limit text)

/-- Whether an item of a sequence in block form begins here. -/
def startsItem : List Char → Bool
  | '-' :: cs => !goesOn cs
  | _ => false

mutual

/-- A value in block form, at column `limit` or to the right of it. -/
def blockNode : Nat → Nat → Line → Option (Yaml × Line)
  | 0, _, _ => none
  | fuel + 1, limit, line =>
    if startsItem line.text then
      (blockItems fuel false line.column line).map fun (items, line) => (.sequence items, line)
    else do
      let s ← inline? fuel limit line.text
      if (afterKey? false line.text s.rest).isSome then
        (blockEntries fuel line.column line).map fun (entries, line) => (.mapping entries, line)
      else s.line?.map (s.value, ·)

/-- Items of a sequence at a column. Directly below a key it may stand in the column of that key,
and ends at the next key then. -/
def blockItems : Nat → Bool → Nat → Line → Option (List Yaml × Line)
  | 0, _, _, _ => none
  | fuel + 1, below, column, line =>
    if line.text.isEmpty || line.column < column then some ([], line)
    else if line.column == column && startsItem line.text then do
      let line := seek false (column + 1) (line.text.drop 1)
      let (item, line) ←
        if !line.text.isEmpty && column < line.column then blockNode fuel (column + 1) line
        else some (missing, line)
      (blockItems fuel below column line).map fun (items, line) => (item :: items, line)
    else if below && line.column == column then some ([], line)
    else none

/-- Entries of a mapping at a column. -/
def blockEntries : Nat → Nat → Line → Option (List (Yaml × Yaml) × Line)
  | 0, _, _ => none
  | fuel + 1, column, line =>
    if line.text.isEmpty || line.column < column then some ([], line)
    else if column < line.column then none
    else do
      let key ← inline? fuel (column + 1) line.text
      let after ← afterKey? false line.text key.rest
      let (value, line) ← blockValue fuel column after
      (blockEntries fuel column line).map fun (entries, line) =>
        ((key.value, value) :: entries, line)

/-- A value after a key and its colon: on the same line, or on lines below that stand
to the right of the key. -/
def blockValue : Nat → Nat → List Char → Option (Yaml × Line)
  | 0, _, _ => none
  | fuel + 1, column, after =>
    match endLine after with
    | none =>
      (inline? fuel (column + 1) (after.dropWhile isBlank)).bind fun s => s.line?.map (s.value, ·)
    | some line =>
      if line.text.isEmpty then some (missing, line)
      else if column < line.column then blockNode fuel (column + 1) line
      else if line.column == column && startsItem line.text then
        (blockItems fuel true column line).map fun (items, line) => (.sequence items, line)
      else some (missing, line)

end

/-- Line breaks in their shortest form. -/
def unifyBreaks : List Char → List Char
  | '\r' :: '\n' :: cs => '\n' :: unifyBreaks cs
  | c :: cs => (if c == '\r' || c == '\u0085' then '\n' else c) :: unifyBreaks cs
  | [] => []

/-- Control characters cannot be written as they are. -/
def isPrintable (c : Char) : Bool :=
  let n := c.toNat
  isWhite c || c == '\r' || c == '\u0085' || (0x20 ≤ n && n ≤ 0x7e) ||
    (0xa0 ≤ n && n ≤ 0xfffd) || 0x10000 ≤ n

/-- Read a document; one without content is nothing. A mark for the order of bytes may stand
first. -/
def read? (document : String) : Option Yaml := do
  let text := match document.toList with
    | '\ufeff' :: cs => cs
    | cs => cs
  guard (text.all isPrintable)
  let text := unifyBreaks text
  let line := seek false 0 text
  if line.text.isEmpty then return missing
  let (y, line) ← blockNode (3 * text.length + 3) 0 line
  guard line.text.isEmpty
  return y

end GrammarGraph.Yaml
