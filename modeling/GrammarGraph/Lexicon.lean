import GrammarGraph.Lexer.Stream
import GrammarGraph.Settings

/-! # Lexicons

A lexicon lists token types and comment markers, so that a lexer can be set up without a grammar.
-/

namespace GrammarGraph

inductive KeywordEntry where
  | plain (text : String)
  | detailed (text : String) (caseSensitive : Bool)
deriving DecidableEq, Repr

inductive SeparatorEntry where
  | plain (marker : String)
  | detailed (marker : String) (tight : Bool)
  | pattern (text : String)
deriving DecidableEq, Repr

structure Lexicon where
  literal : Bool := false
  words : List String := []
  keywords : List KeywordEntry := []
  separators : List SeparatorEntry := []
  leading : List String := []
  trailing : List String := []
  lineComment : Option String := none
  blockComment : Option BlockComment := none
  tabSize : Option UInt64 := none
deriving DecidableEq, Repr

/-! ## Reading

An entry that may be a text or a mapping takes the first form that fits.
-/

namespace KeywordEntry

def ofFields? (fields : List (String × Yaml)) : Option KeywordEntry := do
  return detailed (← Yaml.field? fields "keyword" Yaml.ownText?)
    (← Yaml.fieldOr fields "case_sensitive" Yaml.bool? true)

def ofYaml? (y : Yaml) : Option KeywordEntry :=
  (y.ownText?.map plain).or ((y.entries? Yaml.ownText?).bind ofFields?)

end KeywordEntry

namespace SeparatorEntry

def detailedOfFields? (fields : List (String × Yaml)) : Option SeparatorEntry := do
  return detailed (← Yaml.field? fields "marker" Yaml.ownText?)
    (← Yaml.fieldOr fields "tight" Yaml.bool? false)

def patternOfFields? (fields : List (String × Yaml)) : Option SeparatorEntry := do
  return pattern (← Yaml.field? fields "pattern" Yaml.ownText?)

def ofYaml? (y : Yaml) : Option SeparatorEntry :=
  (y.ownText?.map plain).or ((y.entries? Yaml.ownText?).bind fun fields =>
      (detailedOfFields? fields).or (patternOfFields? fields))

end SeparatorEntry

namespace Lexicon

/-- What is not given keeps its default, and unknown names do not count. -/
def ofYaml? (y : Yaml) : Option Lexicon := do
  let fields ← y.fields?
  let texts (name : String) : Option (List String) :=
    Yaml.fieldOr fields name (Yaml.list? Yaml.text?) []
  return {
    literal := ← Yaml.fieldOr fields "literal" Yaml.bool? false
    words := ← texts "words"
    keywords := ← Yaml.fieldOr fields "keywords" (Yaml.list? KeywordEntry.ofYaml?) []
    separators := ← Yaml.fieldOr fields "separators" (Yaml.list? SeparatorEntry.ofYaml?) []
    leading := ← texts "prefixes"
    trailing := ← texts "postfixes"
    lineComment := ← Yaml.fieldOr fields "line_comment" (Yaml.optional Yaml.text?) none
    blockComment := ← Yaml.fieldOr fields "block_comment" (Yaml.optional BlockComment.ofYaml?) none
    tabSize := ← Yaml.fieldOr fields "tab_size" (Yaml.optional Yaml.word?) none }

@[simp] theorem ofYaml?_missing : ofYaml? .missing = some {} := rfl

def read (document : String) : Except ConfigError Lexicon :=
  match (Yaml.read? document).bind ofYaml? with
  | some l => .ok l
  | none => .error .yaml

/-! ## Registering -/

/-- Declares one type. -/
abbrev Step := Registry → Except GrammarError (TokenType × Registry)

def keywordStep : KeywordEntry → Step
  | .plain text | .detailed text true => fun r => .ok (r.addKeyword text)
  | .detailed text false => fun r => .ok (r.addKeywordAnyCase text)

def separatorStep : SeparatorEntry → Step
  | .plain marker => fun r => .ok (r.addSeparator marker)
  | .detailed marker tight => fun r => .ok (r.addSeparator marker tight)
  | .pattern text => fun r => r.addPatternSeparator text

def steps (l : Lexicon) : List Step :=
  (if l.literal then [fun r => .ok r.addLiteral] else [])
    ++ l.words.map (fun pattern r => r.addWord pattern)
    ++ l.keywords.map keywordStep
    ++ l.separators.map separatorStep
    ++ l.leading.map (fun marker r => .ok (r.addLeading marker))
    ++ l.trailing.map (fun marker r => .ok (r.addTrailing marker))

/-- Take steps up to the first that fails; what was declared before it stays. -/
def run : List Step → Registry → Registry × Option GrammarError
  | [], r => (r, none)
  | step :: rest, r =>
    match step r with
    | .ok (_, r) => run rest r
    | .error e => (r, some e)

@[simp] theorem run_nil (r : Registry) : run [] r = (r, none) := rfl

/-- Declare all types of a lexicon, up to a malformed pattern. -/
def register (l : Lexicon) (r : Registry) : Registry × Option GrammarError := run l.steps r

/-- A lexer for the types of a lexicon, which are declared anew. -/
def lexer (l : Lexicon) : Except ConfigError Lexer :=
  match l.register {} with
  | (_, some e) => .error (.grammar e)
  | (r, none) =>
    let lx := (Lexer.ofTypes r.types).setComments l.lineComment l.blockComment
    .ok (match l.tabSize with
      | some n => lx.setTabSize n
      | none => lx)

end Lexicon

end GrammarGraph
