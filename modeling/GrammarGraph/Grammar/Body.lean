import GrammarGraph.Grammar.Graph

/-! # Rule bodies

A body is a list of clauses that either build a part or link parts in a chain. Each part
has a socket, where it is entered, and a plug, where it is left. Of two links from one
plug the earlier is preferred.
-/

namespace GrammarGraph

/-- Entry and exit of a part. -/
structure Element where
  socket : NodeId
  plug : NodeId
deriving DecidableEq, Repr

def Element.ofNode (id : NodeId) : Element := ⟨id, id⟩

inductive Multiplicity where
  | zeroOrOne
  | zeroOrMore
  | oneOrMore
deriving DecidableEq, Repr

/-- A part that exists already. -/
inductive Ref where
  | entry
  | exit
  /-- A part of the same body, by its number. -/
  | part (index : Nat)
  /-- The socket of one part with the plug of another. -/
  | span (first last : Ref)
  /-- The node at which a part is entered, by itself. -/
  | socket (r : Ref)
  /-- The node at which a part is left, by itself. -/
  | plug (r : Ref)
deriving DecidableEq, Repr

/-- A part to be built. -/
inductive Piece where
  | ref (r : Ref)
  | junction
  | slot (type : TokenType) (ident : Option String) (hook : Option Hook)
  | call (rule : RuleId) (ident : Option String)
  | sequence (pieces : List Piece)
  | fork (pieces : List Piece)
  | repeated (multiplicity : Multiplicity) (piece : Piece)
  | switch (branches : List (String × Piece))
  | guard (holds : Context → Bool)

namespace Piece

instance : Inhabited Piece := ⟨junction⟩

def token (type : TokenType) : Piece := slot type none none

def tokenAs (type : TokenType) (ident : String) : Piece := slot type (some ident) none

def rule (id : RuleId) : Piece := call id none

def ruleAs (id : RuleId) (ident : String) : Piece := call id (some ident)

def optional (p : Piece) : Piece := repeated .zeroOrOne p

def many (p : Piece) : Piece := repeated .zeroOrMore p

def many1 (p : Piece) : Piece := repeated .oneOrMore p

end Piece

namespace Graph

def connectElements (g : Graph) (a b : Element) : Graph := g.connect a.plug b.socket

/-- Link consecutive elements. -/
def chain (g : Graph) : List Element → Graph
  | a :: b :: rest => (g.connectElements a b).chain (b :: rest)
  | _ => g

/-- A junction before and one behind. -/
def addEnds (g : Graph) : Element × Graph :=
  let (start, g) := g.add .junction
  let (stop, g) := g.add .junction
  (⟨start, stop⟩, g)

def addSequence (g : Graph) (elements : List Element) : Element × Graph :=
  let (ends, g) := g.addEnds
  (ends, g.chain (.ofNode ends.socket :: elements ++ [.ofNode ends.plug]))

def addFork (g : Graph) (branches : List Element) : Element × Graph :=
  let (ends, g) := g.addEnds
  (ends, branches.foldl (fun g b => (g.connect ends.socket b.socket).connect b.plug ends.plug) g)

/-- Up to one or any number: the link into the piece comes before the link that passes it by. At
least one: behind the piece, the link that leaves comes before the link to one more iteration. -/
def addRepeated (g : Graph) (m : Multiplicity) (e : Element) : Element × Graph :=
  let (ends, g) := g.addEnds
  let g := g.connect ends.socket e.socket
  (ends, match m with
    | .zeroOrOne => (g.connect e.plug ends.plug).connect ends.socket ends.plug
    | .zeroOrMore => (g.connect e.plug ends.socket).connect ends.socket ends.plug
    | .oneOrMore => (g.connect e.plug ends.plug).connect e.plug e.socket)

/-- Branches by keyword; of two with the same keyword the later counts. -/
def addSwitch (g : Graph) (branches : List (String × Element)) : Element × Graph :=
  let (stop, g) := g.add .junction
  let g := branches.foldl (fun g (_, b) => g.connect b.plug stop) g
  let table :=
    branches.foldl (fun table (key, b) => (key, b.socket) :: table.filter (·.1 != key)) []
  let (socket, g) := g.add (.switch table stop)
  (⟨socket, stop⟩, g)

def addGuard (g : Graph) (holds : Context → Bool) : Element × Graph :=
  let (stop, g) := g.add .junction
  let (socket, g) := g.add (.gate holds stop)
  (⟨socket, stop⟩, g)

def addCall (g : Graph) (rule : RuleId) (ident : Option String) : Element × Graph :=
  let (stop, g) := g.add (.ruleEnd rule ident)
  let (start, g) := g.add (.ruleStart rule ident stop)
  (⟨start, stop⟩, g)

end Graph

/-- The parts that a clause can refer to. -/
structure Parts where
  entry : NodeId
  exit : NodeId
  built : Array Element := #[]

/-- The element a reference stands for; a number without a part stands for the entry. -/
def Parts.resolve (parts : Parts) : Ref → Element
  | .entry => .ofNode parts.entry
  | .exit => .ofNode parts.exit
  | .part i => parts.built[i]?.getD (.ofNode parts.entry)
  | .span first last => ⟨(parts.resolve first).socket, (parts.resolve last).plug⟩
  | .socket r => .ofNode (parts.resolve r).socket
  | .plug r => .ofNode (parts.resolve r).plug

namespace Piece

mutual

/-- Build a piece, its own pieces first and from left to right. -/
def build (parts : Parts) : Piece → Graph → Element × Graph
  | ref r, g => (parts.resolve r, g)
  | junction, g =>
    let (id, g) := g.add .junction
    (.ofNode id, g)
  | slot type ident hook, g =>
    let (id, g) := g.add (.slot type ident hook)
    (.ofNode id, g)
  | call rule ident, g => g.addCall rule ident
  | sequence ps, g =>
    let (es, g) := buildAll parts ps g
    g.addSequence es
  | fork ps, g =>
    let (es, g) := buildAll parts ps g
    g.addFork es
  | repeated m p, g =>
    let (e, g) := build parts p g
    g.addRepeated m e
  | switch bs, g =>
    let (es, g) := buildBranches parts bs g
    g.addSwitch es
  | guard holds, g => g.addGuard holds

def buildAll (parts : Parts) : List Piece → Graph → List Element × Graph
  | [], g => ([], g)
  | p :: ps, g =>
    let (e, g) := build parts p g
    let (es, g) := buildAll parts ps g
    (e :: es, g)

def buildBranches (parts : Parts) : List (String × Piece) → Graph → List (String × Element) × Graph
  | [], g => ([], g)
  | b :: bs, g =>
    let (e, g) := buildBranch parts b g
    let (es, g) := buildBranches parts bs g
    (e :: es, g)

def buildBranch (parts : Parts) : String × Piece → Graph → (String × Element) × Graph
  | (key, p), g =>
    let (e, g) := build parts p g
    ((key, e), g)

end

end Piece

inductive Clause where
  /-- Build the next part. -/
  | part (p : Piece)
  /-- Link parts one after the other. -/
  | chain (refs : List Ref)

abbrev Body := List Clause

namespace Body

/-- A single piece between entry and exit. -/
def ofPiece (p : Piece) : Body := [.part p, .chain [.entry, .part 0, .exit]]

/-- Build and link the clauses in order. -/
def wire (parts : Parts) : Body → Graph → Graph
  | [], g => g
  | .part p :: rest, g =>
    let (e, g) := p.build parts g
    wire { parts with built := parts.built.push e } rest g
  | .chain refs :: rest, g => wire parts rest (g.chain (refs.map parts.resolve))

end Body

end GrammarGraph
