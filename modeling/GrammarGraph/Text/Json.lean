/-! # Writing JSON -/

namespace GrammarGraph

/-- The values that are written; members of an object keep their order. -/
inductive Json where
  | text (s : String)
  | number (n : Nat)
  | array (items : List Json)
  | object (members : List (String × Json))

namespace Json

def hexDigits : List Char :=
  ['0', '1', '2', '3', '4', '5', '6', '7', '8', '9', 'a', 'b', 'c', 'd', 'e', 'f']

/-- A character inside quotes: quotes, backslashes and control characters are escaped. -/
def escapeChar (c : Char) : List Char :=
  if c == '\x22' then ['\\', '\x22']
  else if c == '\\' then ['\\', '\\']
  else if c == '\n' then ['\\', 'n']
  else if c == '\r' then ['\\', 'r']
  else if c == '\t' then ['\\', 't']
  else if c == '\x08' then ['\\', 'b']
  else if c == '\x0c' then ['\\', 'f']
  else if c.toNat < 32 then
    ['\\', 'u', '0', '0', hexDigits.getD (c.toNat / 16) '0', hexDigits.getD (c.toNat % 16) '0']
  else [c]

def quote (s : String) : String := String.ofList ('\x22' :: s.toList.flatMap escapeChar ++ ['\x22'])

mutual

/-- On one line, without blanks. -/
def compact : Json → String
  | text s => quote s
  | number n => n.repr
  | array items => "[" ++ ",".intercalate (compactItems items) ++ "]"
  | object members => "\x7b" ++ ",".intercalate (compactMembers members) ++ "\x7d"

def compactItems : List Json → List String
  | [] => []
  | j :: js => compact j :: compactItems js

def compactMembers : List (String × Json) → List String
  | [] => []
  | m :: ms => compactMember m :: compactMembers ms

def compactMember : String × Json → String
  | (name, j) => quote name ++ ":" ++ compact j

end

/-- Items between brackets, each on a line of its own; none at all keep the brackets together. -/
def block (left right indent : String) (items : List String) : String :=
  if items.isEmpty then left ++ right
  else
    let line := "\n" ++ indent ++ "  "
    left ++ line ++ ("," ++ line).intercalate items ++ "\n" ++ indent ++ right

mutual

/-- On several lines, nested ones indented by two blanks. -/
def pretty (indent : String) : Json → String
  | text s => quote s
  | number n => n.repr
  | array items => block "[" "]" indent (prettyItems (indent ++ "  ") items)
  | object members => block "\x7b" "\x7d" indent (prettyMembers (indent ++ "  ") members)

def prettyItems (indent : String) : List Json → List String
  | [] => []
  | j :: js => pretty indent j :: prettyItems indent js

def prettyMembers (indent : String) : List (String × Json) → List String
  | [] => []
  | m :: ms => prettyMember indent m :: prettyMembers indent ms

def prettyMember (indent : String) : String × Json → String
  | (name, j) => quote name ++ ": " ++ pretty indent j

end

end Json

end GrammarGraph
