import GrammarGraph.Definition.Basic
import GrammarGraph.Grammar.Basic

/-! # From definitions to grammars

Token types are numbered in the order of their declarations, followed by one keyword for each quoted
text that no case-sensitive keyword declares. The patterns are read by the reader that is given.
-/

namespace GrammarGraph

namespace Item

mutual

/-- The quoted texts of branches, in order and with repetitions. -/
def quotedInBranches : List Branch → List String
  | [] => []
  | b :: bs => quotedInBranch b ++ quotedInBranches bs

def quotedInBranch : List Item → List String
  | [] => []
  | i :: is => quoted i ++ quotedInBranch is

def quoted : Item → List String
  | single _ (.keyword text) _ => [text]
  | single .. => []
  | group _ branches _ => quotedInBranches branches

end

end Item

/-- What the names of a definition stand for. -/
structure Symbols where
  tokens : List (String × TokenType) := []
  keywords : List (String × TokenType) := []
  rules : List (String × RuleId) := []

namespace Symbols

def target (s : Symbols) (ident : Option String) : Target → Except DefinitionError Piece
  | .token name =>
    match s.tokens.lookup name with
    | some t => .ok (.slot t ident none)
    | none => .error (.unknownToken name)
  | .keyword text =>
    match s.keywords.lookup text with
    | some t => .ok (.slot t ident none)
    | none => .error (.unknownToken text)
  | .rule name =>
    match s.rules.lookup name with
    | some id => .ok (.call id ident)
    | none => .error (.unknownRule name)

/-- Alternatives: a single one is not forked. -/
def alternatives : List Piece → Piece
  | [p] => p
  | ps => .fork ps

def repeated (multiplicity : Option Multiplicity) (p : Piece) : Piece :=
  match multiplicity with
  | some m => .repeated m p
  | none => p

mutual

def branches (s : Symbols) : List Branch → Except DefinitionError (List Piece)
  | [] => .ok []
  | b :: bs => do
    let p ← items s b
    let ps ← branches s bs
    return .sequence p :: ps

def items (s : Symbols) : List Item → Except DefinitionError (List Piece)
  | [] => .ok []
  | i :: is => do
    let p ← item s i
    let ps ← items s is
    return p :: ps

def item (s : Symbols) : Item → Except DefinitionError Piece
  | .single ident target multiplicity => (s.target ident target).map (repeated multiplicity)
  | .group _ bs multiplicity =>
    (branches s bs).map fun ps => repeated multiplicity (alternatives ps)

end

end Symbols

namespace Definition

/-- The token type of a declaration. -/
def declare (r : Registry) (form : TokenForm) (read : PatternReader := Pattern.ofText?) :
    Except GrammarError (TokenType × Registry) :=
  match form with
  | .keyword text true => .ok (r.addKeyword text)
  | .keyword text false => .ok (r.addKeywordAnyCase text)
  | .word pattern => r.addWord pattern (fun _ => true) read
  | .leading marker => .ok (r.addLeading marker)
  | .trailing marker => .ok (r.addTrailing marker)
  | .separator marker true _ => r.addPatternSeparator marker read
  | .separator marker false whitespaceAllowed => .ok (r.addSeparator marker !whitespaceAllowed)
  | .literal => .ok r.addLiteral

/-- Declare the token types in order. The first case-sensitive keyword of a text serves its
quotations. -/
def declareTokens (decls : List TokenDecl) (r : Registry) (s : Symbols)
    (read : PatternReader := Pattern.ofText?) : Except DefinitionError (Registry × Symbols) :=
  match decls with
  | [] => .ok (r, s)
  | decl :: rest => do
    let (t, r) ← (declare r decl.form read).mapError .grammar
    if (s.tokens.lookup decl.name).isSome then .error (.duplicate decl.name)
    else
      let keywords := match decl.form with
        | .keyword text true => s.keywords ++ [(text, t)]
        | _ => s.keywords
      declareTokens rest r { s with tokens := s.tokens ++ [(decl.name, t)], keywords } read

/-- Declare a keyword for each quoted text that has none. -/
def declareQuoted : List String → Registry → Symbols → Registry × Symbols
  | [], r, s => (r, s)
  | text :: rest, r, s =>
    if (s.keywords.lookup text).isSome then declareQuoted rest r s
    else
      let (t, r) := r.addKeyword text
      declareQuoted rest r { s with keywords := s.keywords ++ [(text, t)] }

/-- The one rule marked as the root. -/
def rootName (d : Definition) : Except DefinitionError String :=
  match d.rules.filter (·.root) with
  | [] => .error .missingRoot
  | [root] => .ok root.name
  | first :: second :: _ => .error (.multipleRoots first.name second.name)

/-- Number the rules. No two may share a name, nor may a rule and a token type. -/
def declareRules : List RuleDecl → RuleId → Symbols → Except DefinitionError Symbols
  | [], _, s => .ok s
  | r :: rest, id, s =>
    if (s.tokens.lookup r.name).isSome ||
      (s.rules.lookup r.name).isSome then .error (.duplicate r.name)
    else declareRules rest (id + 1) { s with rules := s.rules ++ [(r.name, id)] }

/-- A rule whose body does not depend on its context. -/
def ruleOf (s : Symbols) (r : RuleDecl) : Except DefinitionError Rule :=
  (s.branches r.branches).map fun ps =>
    { name := r.name, expand := some fun _ => .ofPiece (Symbols.alternatives ps) }

/-- The grammar of a definition. -/
def grammar (d : Definition) (read : PatternReader := Pattern.ofText?) :
    Except DefinitionError Grammar := do
  let (types, symbols) ← declareTokens d.tokens {} {} read
  let quoted := Item.quotedInBranches (d.rules.flatMap (·.branches))
  let (types, symbols) := declareQuoted quoted types symbols
  let root ← d.rootName
  let symbols ← declareRules d.rules 0 symbols
  let rules ← d.rules.mapM (ruleOf symbols)
  match symbols.rules.lookup root with
  | some root => return ⟨types, rules, root, none⟩
  | none => .error .missingRoot

end Definition

end GrammarGraph
