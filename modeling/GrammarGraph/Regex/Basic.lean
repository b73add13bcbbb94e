import GrammarGraph.Regex.CharSet

/-! # Regular expressions -/

namespace GrammarGraph

/-- A condition on the place between two characters. -/
inductive Assertion where
  | textStart
  | textEnd
  | lineStart
  | lineEnd
  | wordEdge
  | noWordEdge
  | wordStart
  | wordEnd
  | wordStartHalf
  | wordEndHalf
deriving DecidableEq, Repr

/-- A regular expression; of two alternatives the left one is preferred. -/
inductive Regex where
  | empty
  | set (s : CharSet)
  | look (a : Assertion)
  | seq (r s : Regex)
  | alt (r s : Regex)
  | group (index : Nat) (r : Regex)
  | opt (greedy : Bool) (r : Regex)
  /-- One or more; an iteration that reads nothing is the last one. -/
  | plus (greedy : Bool) (r : Regex)
  | exactly (count : Nat) (r : Regex)
  | upTo (greedy : Bool) (count : Nat) (r : Regex)
deriving DecidableEq, Repr

namespace Regex

def char (c : Char) : Regex := set (.single c)

/-- Exactly the given characters. -/
def literal : List Char → Regex
  | [] => empty
  | c :: cs => seq (char c) (literal cs)

def ofList : List Regex → Regex
  | [] => empty
  | r :: rs => seq r (ofList rs)

def star (greedy : Bool) (r : Regex) : Regex := opt greedy (plus greedy r)

/-- At least `count` times; only the last iteration repeats. -/
def atLeast (greedy : Bool) (count : Nat) (r : Regex) : Regex :=
  match count with
  | 0 => star greedy r
  | n + 1 => seq (exactly n r) (plus greedy r)

def between (greedy : Bool) (least most : Nat) (r : Regex) : Regex :=
  seq (exactly least r) (upTo greedy (most - least) r)

/-- A bound on the room a compiled set takes, in states. -/
def setWeight : CharSet → Nat
  | .empty => 1
  | .range first last => if last.toNat < 128 then 1 else if first == last then 4 else 10
  | .word => 1500
  | .digit => 100
  | .space => 20
  | .compl s => setWeight s + 10
  | .union s t | .inter s t => setWeight s + setWeight t
  | .folded s => setWeight s

/-- The number of states when all counted repetitions are written out. -/
def weight : Regex → Nat
  | empty | look _ => 1
  | set s => setWeight s
  | seq r s => weight r + weight s
  | alt r s => weight r + weight s + 1
  | group _ r => weight r + 2
  | opt _ r | plus _ r => weight r + 1
  | exactly n r => n * weight r
  | upTo _ n r => n * (weight r + 1)

/-- A pattern with more states than this is refused. -/
def maxWeight : Nat := 327680

end Regex

/-- A regular expression together with the number of its groups. -/
structure Pattern where
  regex : Regex
  groups : Nat
deriving DecidableEq, Repr

end GrammarGraph
