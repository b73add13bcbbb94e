import GrammarGraph.Regex.Basic

/-! # Matching

Leftmost, first alternative first. A match is found by trying the alternatives in order of
preference, each with the rest of the work passed along as a continuation.
-/

namespace GrammarGraph

/-- A place in a text: what was read last and what is still ahead. -/
structure Cursor where
  pos : Nat
  last : Option Char
  rest : List Char
deriving DecidableEq, Repr

namespace Cursor

def start (text : List Char) : Cursor := ⟨0, none, text⟩

/-- Step over one character of `s`. -/
def step? (cur : Cursor) (s : CharSet) : Option Cursor :=
  match cur.rest with
  | [] => none
  | c :: cs => if s.mem c then some ⟨cur.pos + 1, some c, cs⟩ else none

end Cursor

/-- Whether the assertion holds at the cursor. -/
def Assertion.holds (a : Assertion) (cur : Cursor) : Bool :=
  let before := cur.last.any CharSet.isWord
  let after := cur.rest.head?.any CharSet.isWord
  match a with
  | .textStart => cur.last.isNone
  | .textEnd => cur.rest.isEmpty
  | .lineStart => cur.last.all (· == '\n')
  | .lineEnd => cur.rest.head?.all (· == '\n')
  | .wordEdge => before != after
  | .noWordEdge => before == after
  | .wordStart => !before && after
  | .wordEnd => before && !after
  | .wordStartHalf => !before
  | .wordEndHalf => !after

/-- Closed groups, the latest first: index, first and behind-last offset. -/
abbrev Groups := List (Nat × Nat × Nat)

namespace Regex

variable {α : Type}

/-- Of two ways to go on, the preferred one that succeeds. -/
def prefer (first : Bool) (a b : Unit → Option α) : Option α :=
  if first then (a ()).orElse b else (b ()).orElse a

/-- Further iterations, each of which has to read something. -/
def again (body : Cursor → Groups → (Cursor → Groups → Option α) → Option α) (greedy : Bool) :
    Nat → Cursor → Groups → (Cursor → Groups → Option α) → Option α
  | 0, cur, gs, k => k cur gs
  | fuel + 1, cur, gs, k =>
    prefer greedy
      (fun _ => body cur gs fun cur' gs' =>
        if cur.pos < cur'.pos then again body greedy fuel cur' gs' k else none)
      (fun _ => k cur gs)

def times (body : Cursor → Groups → (Cursor → Groups → Option α) → Option α) :
    Nat → Cursor → Groups → (Cursor → Groups → Option α) → Option α
  | 0, cur, gs, k => k cur gs
  | n + 1, cur, gs, k => body cur gs fun cur' gs' => times body n cur' gs' k

def atMost (body : Cursor → Groups → (Cursor → Groups → Option α) → Option α) (greedy : Bool) :
    Nat → Cursor → Groups → (Cursor → Groups → Option α) → Option α
  | 0, cur, gs, k => k cur gs
  | n + 1, cur, gs, k =>
    prefer greedy (fun _ => body cur gs fun cur' gs' => atMost body greedy n cur' gs' k)
      (fun _ => k cur gs)

/-- Match from the cursor and go on with `k`. -/
def run : Regex → Cursor → Groups → (Cursor → Groups → Option α) → Option α
  | empty, cur, gs, k => k cur gs
  | set s, cur, gs, k => (cur.step? s).bind (k · gs)
  | look a, cur, gs, k => if a.holds cur then k cur gs else none
  | seq r s, cur, gs, k => run r cur gs fun cur' gs' => run s cur' gs' k
  | alt r s, cur, gs, k => prefer true (fun _ => run r cur gs k) (fun _ => run s cur gs k)
  | group i r, cur, gs, k => run r cur gs fun cur' gs' => k cur' ((i, cur.pos, cur'.pos) :: gs')
  | opt greedy r, cur, gs, k => prefer greedy (fun _ => run r cur gs k) (fun _ => k cur gs)
  | plus greedy r, cur, gs, k =>
    run r cur gs fun cur' gs' =>
      if cur.pos < cur'.pos then again (run r) greedy cur'.rest.length cur' gs' k else k cur' gs'
  | exactly n r, cur, gs, k => times (run r) n cur gs k
  | upTo greedy n r, cur, gs, k => atMost (run r) greedy n cur gs k

end Regex

/-- A match: its own offsets and those of its groups. -/
structure Match where
  start : Nat
  stop : Nat
  groups : Groups
deriving DecidableEq, Repr

namespace Match

/-- Offsets of a group; group 0 is the match itself. -/
def group? (m : Match) (index : Nat) : Option (Nat × Nat) :=
  if index = 0 then some (m.start, m.stop)
  else (m.groups.find? (·.1 == index)).map (·.2)

/-- Text of a group. -/
def text? (m : Match) (text : List Char) (index : Nat) : Option (List Char) :=
  (m.group? index).map fun (start, stop) => (text.drop start).take (stop - start)

end Match

namespace Pattern

/-- The preferred match that starts at the cursor. -/
def matchAt (p : Pattern) (cur : Cursor) : Option Match :=
  p.regex.run cur [] fun cur' gs => some ⟨cur.pos, cur'.pos, gs⟩

/-- The preferred match among those that start first at or after `pos`. -/
def findFrom (p : Pattern) (pos : Nat) (last : Option Char) : List Char → Option Match
  | [] => p.matchAt ⟨pos, last, []⟩
  | c :: cs => (p.matchAt ⟨pos, last, c :: cs⟩).orElse fun _ => p.findFrom (pos + 1) (some c) cs

def find (p : Pattern) (text : List Char) : Option Match := p.findFrom 0 none text

def accepts (p : Pattern) (text : List Char) : Bool := (p.find text).isSome

end Pattern

end GrammarGraph
