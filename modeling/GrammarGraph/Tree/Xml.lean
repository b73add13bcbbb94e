import GrammarGraph.Tree.Basic

/-! # Trees as XML

Each node becomes an element of its name, with an id attribute if it has an id, and its text in
front of the nested elements, which are indented by one tab more.
-/

namespace GrammarGraph.Tree

/-- A character of a text or attribute; markup characters become entities. -/
def escapeXmlChar (c : Char) : List Char :=
  if c == '&' then "&amp;".toList
  else if c == '<' then "&lt;".toList
  else if c == '>' then "&gt;".toList
  else if c == '\x22' then "&quot;".toList
  else if c == '\x27' then "&apos;".toList
  else [c]

def escapeXml (s : String) : String := String.ofList (s.toList.flatMap escapeXmlChar)

def idAttribute (id : String) : String :=
  if id = "" then "" else " id=\"" ++ escapeXml id ++ "\""

mutual

def xmlAt (indent : String) : Tree → String
  | ⟨name, text, id, [], _⟩ =>
    let head := indent ++ "<" ++ name ++ idAttribute id
    if text = "" then head ++ "/>\n" else head ++ ">" ++ escapeXml text ++ "</" ++ name ++ ">\n"
  | ⟨name, text, id, child :: children, _⟩ =>
    indent ++ "<" ++ name ++ idAttribute id ++ ">" ++ escapeXml text ++ "\n" ++
      xmlAt (indent ++ "\t") child ++ xmlAll (indent ++ "\t") children ++ indent ++
      "</" ++ name ++ ">\n"

def xmlAll (indent : String) : List Tree → String
  | [] => ""
  | t :: ts => xmlAt indent t ++ xmlAll indent ts

end

def toXml (t : Tree) : String := xmlAt "" t

end GrammarGraph.Tree
