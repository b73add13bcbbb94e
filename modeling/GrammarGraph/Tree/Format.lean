import GrammarGraph.Text.Json
import GrammarGraph.Tree.Xml

/-! # Output formats -/

namespace GrammarGraph

namespace Tree

mutual

/-- Name, text, id and children; tokens are left out. -/
def toJson : Tree → Json
  | ⟨name, text, id, children, _⟩ =>
    .object [("name", .text name), ("text", .text text), ("id", .text id),
      ("children", .array (toJsons children))]

def toJsons : List Tree → List Json
  | [] => []
  | t :: ts => toJson t :: toJsons ts

end

end Tree

/-- A way to write a tree, by the name under which it is found. -/
structure Format where
  name : String
  description : String
  write : Tree → String

namespace Format

def json : Format := ⟨"json", "Single-line JSON", fun t => t.toJson.compact⟩

def jsonPretty : Format := ⟨"json-pretty", "Indented JSON", fun t => t.toJson.pretty ""⟩

def xml : Format := ⟨"xml", "Tab-indented XML elements", Tree.toXml⟩

end Format

/-- No format of this name. -/
structure FormatNotFound where
  name : String
deriving DecidableEq, Repr

def FormatNotFound.message (e : FormatNotFound) : String := "Format '" ++ e.name ++ "' not found"

/-- Formats with distinct names, in the order of their names. -/
structure Formats where
  formats : List Format := []

namespace Formats

def insert (f : Format) : List Format → List Format
  | [] => [f]
  | g :: rest =>
    if f.name < g.name then f :: g :: rest
    else if f.name = g.name then f :: rest
    else g :: insert f rest

/-- Add a format, in the place of one with the same name. -/
def register (fs : Formats) (f : Format) : Formats := ⟨insert f fs.formats⟩

def get? (fs : Formats) (name : String) : Option Format := fs.formats.find? (·.name == name)

def has (fs : Formats) (name : String) : Bool := (fs.get? name).isSome

def names (fs : Formats) : List String := fs.formats.map (·.name)

def builtIn : Formats := ((({} : Formats).register .json).register .jsonPretty).register .xml

@[simp] theorem names_builtIn : builtIn.names = ["json", "json-pretty", "xml"] := by decide

def write (fs : Formats) (t : Tree) (name : String) : Except FormatNotFound String :=
  match fs.get? name with
  | some f => .ok (f.write t)
  | none => .error ⟨name⟩

end Formats

end GrammarGraph
