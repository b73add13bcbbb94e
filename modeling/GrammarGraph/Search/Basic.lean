import GrammarGraph.Lexer.Stream
import GrammarGraph.Search.Walk

/-! # The search

A depth-first search that takes the tokens one at a time. Each iteration either descends from the
tip to a slot for the next token, or, with no token left, to the end of the root rule; where that
fails it switches to the next alternative further up the path, and the tokens it steps back over are
pending again. Without full backtracking the end of a completed rule is a barrier.

A number of levels and iterations bounds the work; where it does not suffice there is no answer.
-/

namespace GrammarGraph

/-- The graph wired so far and the path over it. -/
structure Search where
  graph : Graph
  path : Path

namespace Search

def push (g : Grammar) (s : Search) (node : NodeId) (token : Option Token) : Search :=
  { s with path := s.path.push s.graph g node token }

def pop (s : Search) : Search := { s with path := (s.path.pop s.graph).2 }

/-- The path that stands on the start of the root rule. -/
def start (g : Grammar) : Search :=
  push g { graph := .ofGrammar g, path := {} } Graph.root none

/-- Try nodes one after the other, stepping back from each that fails. -/
def tryEach (g : Grammar) (blocked : Search → NodeId → Bool)
    (visit : Search → Option (Bool × Search)) : List NodeId → Search → Option (Bool × Search)
  | [], s => some (false, s)
  | n :: ns, s =>
    if blocked s n then tryEach g blocked visit ns s
    else
      match visit (s.push g n none) with
      | none => none
      | some (true, s) => some (true, s)
      | some (false, s) => tryEach g blocked visit ns s.pop

/-- Leave the tip in a context with the given token and try its successors; on failure release the
nodes that this wired. With no successor at all the answer is `deadEnd`. -/
def leave (g : Grammar) (token : Option Token) (deadEnd : Bool) (blocked : Search → NodeId → Bool)
    (visit : Search → Option (Bool × Search)) (tip : NodeId) (s : Search) :
    Option (Bool × Search) :=
  let mark := s.graph.size
  match s.graph.successors g tip ⟨s.path, token⟩ with
  | (none, graph) => some (false, { s with graph := graph.truncate mark })
  | (some next, graph) =>
    if next.isEmpty && deadEnd then some (true, { s with graph })
    else
      match tryEach g blocked visit next { s with graph } with
      | none => none
      | some (true, s) => some (true, s)
      | some (false, s) => some (false, { s with graph := s.graph.truncate mark })

/-- Descend from the tip until a slot takes the token. -/
def descend (g : Grammar) (token : Token) : Nat → Search → Option (Bool × Search)
  | 0, _ => none
  | fuel + 1, s =>
    match s.path.tip? with
    | none => some (false, s)
    | some tip =>
      match s.graph.kind tip.node, tip.token with
      | .slot type _ _, none =>
        if token.hasType type.id then some (true, s.pop.push g tip.node (some token))
        else some (false, s)
      | _, _ =>
        leave g (some token) false (fun s n => s.path.revisits s.graph n)
          (descend g token fuel) tip.node s

/-- Descend from the tip to the end of the root rule without taking a token. -/
def descendToEnd (g : Grammar) : Nat → Search → Option (Bool × Search)
  | 0, _ => none
  | fuel + 1, s =>
    match s.path.tip? with
    | none => some (false, s)
    | some tip =>
      let kind := s.graph.kind tip.node
      if kind.isSlot && tip.token.isNone then some (false, s)
      else
        leave g none kind.isRuleEnd
          (fun s n => (s.graph.kind n).isSlot || s.path.revisits s.graph n)
          (descendToEnd g fuel) tip.node s

/-- Replace the tip by the next alternative behind it, if its parent has one. The tip's
token is pending again. -/
def switchSibling (g : Grammar) (s : Search) (pending : List Token) : Bool × Search × List Token :=
  match s.path.tip? with
  | none => (false, s, pending)
  | some e =>
    let s := s.pop
    match s.path.tip? with
    | none => (false, s.push g e.node e.token, pending)
    | some parent =>
      let mark := s.graph.size
      let (next, graph) := s.graph.successors g parent.node ⟨s.path, e.token⟩
      let after := ((next.getD []).dropWhile (· != e.node)).tail
      match after.find? fun n => !s.path.revisits graph n with
      | some n =>
        let graph := if n < mark then graph.truncate mark else graph
        (true, ({ s with graph } : Search).push g n none, e.token.toList ++ pending)
      | none =>
        (false, ({ s with graph := graph.truncate mark } : Search).push g e.node e.token, pending)

/-- Step back from the tip. -/
def stepBack (s : Search) (pending : List Token) (removed : List PathElement) :
    Search × List Token × List PathElement :=
  match s.path.tip? with
  | none => (s, pending, removed)
  | some e => (s.pop, e.token.toList ++ pending, e :: removed)

/-- Step onto removed elements again, the latest first. -/
def restore (g : Grammar) : List PathElement → Search → List Token → Search × List Token
  | [], s, pending => (s, pending)
  | e :: rest, s, pending =>
    restore g rest (s.push g e.node e.token) (if e.token.isSome then pending.tail else pending)

/-- Step back until an element has a next alternative. If none has, or a barrier
is met, all is put back. -/
def backtrackFrom (g : Grammar) (full : Bool) :
    Nat → Search → List Token → List PathElement → Bool × Search × List Token
  | 0, s, pending, removed => (false, restore g removed s pending)
  | fuel + 1, s, pending, removed =>
    if s.path.length ≤ 1 then (false, restore g removed s pending)
    else
      match s.switchSibling g pending with
      | (true, s, pending) => (true, s, pending)
      | (false, s, pending) =>
        if (s.path.tip?.any fun tip => (s.graph.kind tip.node).isRuleEnd) && !full then
          (false, restore g removed s pending)
        else
          let (s, pending, removed) := s.stepBack pending removed
          backtrackFrom g full fuel s pending removed

/-- Go on with the next untried alternative. -/
def backtrack (g : Grammar) (full : Bool) (s : Search) (pending : List Token) :
    Bool × Search × List Token :=
  backtrackFrom g full s.path.length s pending []

end Search

/-- A search under way: tokens that were read but are not on the path, the next one first,
and the rest of the input. -/
structure Run where
  search : Search
  pending : List Token := []
  stream : Stream

namespace Run

inductive Outcome where
  | done (s : Search)
  | failed (e : ParseError)
  | goOn (r : Run)

/-- Read a token if none is pending. -/
def fetch (lx : Lexer) (r : Run) : Except ParseError Run :=
  match r.pending with
  | _ :: _ => .ok r
  | [] =>
    match r.stream.next lx with
    | (.error e, _) => .error e
    | (.ok none, stream) => .ok { r with stream }
    | (.ok (some t), stream) => .ok { r with stream, pending := [t] }

/-- Go on with the next alternative, or fail. -/
def retreat (g : Grammar) (full : Bool) (r : Run) (e : ParseError) : Outcome :=
  match r.search.backtrack g full r.pending with
  | (true, search, pending) => .goOn { r with search, pending }
  | (false, _, _) => .failed e

/-- One iteration. The token blamed is the last one read. -/
def step (g : Grammar) (lx : Lexer) (full : Bool) (fuel : Nat) (r : Run) : Option Outcome :=
  match r.fetch lx with
  | .error e => some (.failed e)
  | .ok r =>
    match r.pending with
    | [] =>
      match r.search.descendToEnd g fuel with
      | none => none
      | some (true, s) => some (.done s)
      | some (false, s) =>
        some (retreat g full { r with search := s }
          (.unexpectedEnd ⟨r.stream.source, r.stream.position⟩))
    | t :: rest =>
      match r.search.descend g t fuel with
      | none => none
      | some (true, s) => some (.goOn { r with search := s, pending := rest })
      | some (false, s) =>
        let last := (t :: rest).getLast (List.cons_ne_nil t rest)
        some (retreat g full { r with search := s }
          (.unexpectedToken last.text ⟨r.stream.source, last.start⟩))

/-- Iterate to the end; the same bound holds for the iterations and for the levels of each. -/
def iterate (g : Grammar) (lx : Lexer) (full : Bool) (levels : Nat) :
    Nat → Run → Option (Except ParseError Search)
  | 0, _ => none
  | fuel + 1, r =>
    match r.step g lx full levels with
    | none => none
    | some (.done s) => some (.ok s)
    | some (.failed e) => some (.error e)
    | some (.goOn r) => iterate g lx full levels fuel r

def start (g : Grammar) (lx : Lexer) (text : List Char) (source : Option String) : Run :=
  { search := .start g, stream := lx.stream text source }

end Run

end GrammarGraph
