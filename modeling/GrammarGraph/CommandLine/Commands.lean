import GrammarGraph.CommandLine.Help
import GrammarGraph.Definition.Building
import GrammarGraph.Definition.Reading
import GrammarGraph.Lexicon
import GrammarGraph.Sample
import GrammarGraph.Tree.Format

/-! # The commands

`tokens` lists the tokens of a file by a lexicon, `parse` writes the tree of a file by a grammar,
and `formats` lists the output formats.

Main definition: `run`, the outcome of the program for its arguments and the files that it finds.
-/

namespace GrammarGraph.CommandLine

/-- Files by name, with the reason why one cannot be read. -/
abbrev Files := String → Except String String

def Files.read (files : Files) (path : String) : Except FileError String :=
  (files path).mapError (⟨path, ·⟩)

/-- What the program prints and how it ends. -/
structure Outcome where
  status : UInt32 := 0
  out : String := ""
  err : String := ""
deriving DecidableEq, Repr

namespace Outcome

def success (out : String) : Outcome := { out }

/-- A command that could not do its work. -/
def failure (message : String) : Outcome := { status := 1, err := "Error: " ++ message ++ "\n" }

/-- Arguments that make no request. -/
def usage (p : Program) : Outcome :=
  { status := 2
    err := "error: invalid arguments\n\nUsage: " ++ p.root.name ++ p.root.usage ++ " <COMMAND>\n" }

def ofExcept : Except String String → Outcome
  | .ok out => success out
  | .error message => failure message

end Outcome

/-! ## Options -/

def helpOption : Opt :=
  { name := "help", short := some 'h', effect := .help, about := "Print help" }

def versionOption : Opt :=
  { name := "version", short := some 'V', effect := .version, about := "Print version" }

/-- Accepted everywhere; nothing is logged. -/
def logLevelOption : Opt :=
  { name := "log-level"
    about := "Log filter written to stderr (e.g. 'debug', 'railyard=trace')"
    default := some "warn" }

def formatOption (about default : String) (choices : List String) : Opt :=
  { name := "format", short := some 'f', about, default := some default, choices }

/-! ## Tokens -/

namespace Tokens

def command : Command :=
  { name := "tokens"
    about := "Print the tokens of a file"
    positional := some ⟨"<path>", "File to lex"⟩
    options := [
      { name := "lexicon", short := some 'l', about := "YAML file describing the token types",
        required := true },
      logLevelOption,
      formatOption "Output format" "text" ["text", "json"],
      helpOption] }

def line (t : Token) : String :=
  t.start.render ++ "\t" ++ t.text ++ "\t" ++ " ".intercalate (t.types.map (·.render)) ++ "\n"

def positionJson (p : Position) : Json :=
  .object [("line", .number p.line.toNat), ("column", .number p.column.toNat)]

def tokenJson (t : Token) : Json :=
  .object [("text", .text t.text), ("types", .array (t.types.map fun type => .text type.render)),
    ("start", positionJson t.start), ("end", positionJson t.stop)]

def write (format : String) (tokens : List Token) : String :=
  if format = "json" then (Json.array (tokens.map tokenJson)).pretty "" ++ "\n"
  else String.join (tokens.map line)

def run (files : Files) (g : Given) : Except String String := do
  let path := g.positional.getD ""
  let lexicon ← (files.read ((g.value? "lexicon").getD "")).mapError (·.message)
  let lx ← ((Lexicon.read lexicon).bind (·.lexer)).mapError (·.message)
  let text ← files path
  let tokens ← (lx.tokenizeFrom text.toList (some path)).mapError (·.message)
  return write ((g.value? "format").getD "text") tokens

end Tokens

/-! ## Parse -/

namespace Parse

def command : Command :=
  { name := "parse"
    about := "Parse a file with a sample grammar or a grammar definition"
    positional := some ⟨"<path>", "File to parse"⟩
    options := [
      { name := "grammar", short := some 'g', about := "Sample grammar",
        choices := ["for-loops", "commands", "boundary"] },
      logLevelOption,
      { name := "definition", short := some 'd', about := "Grammar definition file" },
      formatOption "Output format (see 'railyard formats')" "json-pretty" [],
      { name := "config", short := some 'c', about := "YAML parser configuration" },
      { name := "full-backtracking", effect := .flag,
        about := "Allow backtracking out of completed rules" },
      { name := "parse-tree", effect := .flag, about := "Skip rule transforms" },
      helpOption] }

/-- A grammar comes from a sample or from a definition, not from both. -/
def accepts (g : Given) : Bool := g.has "grammar" != g.has "definition"

def sample (name : String) : Grammar :=
  if name = "for-loops" then Sample.Loops.grammar
  else if name = "commands" then Sample.Commands.grammar
  else Sample.Boundary.grammar

/-- A search that the bound stopped. -/
def unfinished : String := "the search was given up"

def readDefinition (files : Files) (path : String) : Except String Definition := do
  let content ← (files.read path).mapError fun e => (DefinitionError.parse (.file e)).message
  match Definition.ofFile path content with
  | some result => result.mapError (·.message)
  | none => .error unfinished

/-- The grammar, with the settings that belong to it. -/
def grammar (files : Files) (g : Given) : Except String (Grammar × Settings) :=
  match g.value? "definition" with
  | some path => do
    let d ← readDefinition files path
    return (← d.grammar.mapError (·.message), d.settings)
  | none => .ok (sample ((g.value? "grammar").getD ""), {})

/-- A configuration file takes the place of all settings that the grammar
brings, and flags go on top. -/
def settings (files : Files) (g : Given) (own : Settings) : Except String Settings := do
  let s ← match g.value? "config" with
    | some path => do (Settings.read (← files path)).mapError (·.message)
    | none => .ok own
  return { s with
    fullBacktracking := s.fullBacktracking || g.has "full-backtracking"
    tree := if g.has "parse-tree" then .parseTree else s.tree }

def format (g : Given) : Except String Format :=
  let name := (g.value? "format").getD "json-pretty"
  match Formats.builtIn.get? name with
  | some f => .ok f
  | none =>
    .error ("unknown format '" ++ name ++ "', expected one of: " ++
        ", ".intercalate Formats.builtIn.names)

def tree (files : Files) (p : Parser) (path : String) : Except String Tree := do
  let content ← (files.read path).mapError fun e => (ParseError.file e).message
  match p.parseFile path content with
  | some result => result.mapError (·.message)
  | none => .error unfinished

/-- XML ends its last line itself. -/
def write (f : Format) (t : Tree) : String :=
  f.write t ++ (if "json".isPrefixOf f.name then "\n" else "")

def run (files : Files) (g : Given) : Except String String := do
  let (grammar, own) ← grammar files g
  let settings ← settings files g own
  let format ← format g
  return write format (← tree files (.withSettings grammar settings) (g.positional.getD ""))

end Parse

/-! ## Formats -/

namespace ListFormats

def command : Command :=
  { name := "formats", about := "List available output formats",
    options := [logLevelOption, helpOption] }

def text : String :=
  "Available output formats:\n\n"
    ++ String.join (Formats.builtIn.formats.map fun f => "  " ++ f.name ++ "\n    " ++
      f.description ++ "\n")

end ListFormats

/-! ## The program -/

def program : Program :=
  { root :=
      { name := "railyard"
        about := "Lex and parse text with railyard grammars"
        options := [logLevelOption, helpOption, versionOption] }
    commands := [Tokens.command, Parse.command, ListFormats.command] }

def version : String := "0.1.0"

def runCommand (files : Files) (c : Command) (g : Given) : Outcome :=
  if c = Tokens.command then .ofExcept (Tokens.run files g)
  else if c = Parse.command then
    if Parse.accepts g then .ofExcept (Parse.run files g) else .usage program
  else .success ListFormats.text

def run (files : Files) (args : List String) : Outcome :=
  match program.request args with
  | .run c g => runCommand files c g
  | .help c => .success (program.commandHelp c)
  | .programHelp => .success program.help
  | .version => .success (program.root.name ++ " " ++ version ++ "\n")
  | .usage => .usage program

end GrammarGraph.CommandLine
