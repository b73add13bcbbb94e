import GrammarGraph.Position

/-! # A bounded view of the input -/

namespace GrammarGraph

/-- The input that is still ahead, of which the next `size` characters can be seen, and the position
of the last character read. -/
structure Window where
  rest : List Char
  size : Nat
  tabSize : UInt64
  position : Position
deriving DecidableEq, Repr

namespace Window

/-- A window on a whole text. At least one character can be seen, and a tab
takes at least one column. -/
def ofText (text : List Char) (size : Nat) (tabSize : UInt64) : Window :=
  ⟨text, max size 1, max tabSize 1, .beforeText⟩

def lookahead (w : Window) : List Char := w.rest.take w.size

/-- Read one character. -/
def next? (w : Window) : Option (Char × Window) :=
  match w.rest with
  | [] => none
  | c :: cs => some (c, { w with rest := cs, position := w.position.advance w.tabSize c })

/-- Read up to `count` characters. -/
def take (w : Window) (count : Nat) : List Char × Window :=
  let text := w.rest.take count
  (text, { w with rest := w.rest.drop count, position := w.position.advanceOver w.tabSize text })

/-- Pass over up to `count` characters. -/
def skip (w : Window) (count : Nat) : Window := (w.take count).2

@[simp] theorem rest_skip (w : Window) (n : Nat) : (w.skip n).rest = w.rest.drop n := rfl

@[simp] theorem position_skip (w : Window) (n : Nat) :
    (w.skip n).position = w.position.advanceOver w.tabSize (w.rest.take n) := rfl

@[simp] theorem take_fst (w : Window) (n : Nat) : (w.take n).1 = w.rest.take n := rfl

end Window

end GrammarGraph
