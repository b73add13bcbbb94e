import GrammarGraph.Text.Blank
import GrammarGraph.Text.Case
import GrammarGraph.Text.WordTable

/-! # Sets of characters -/

namespace GrammarGraph

/-- A set of characters as a pattern writes it. -/
inductive CharSet where
  | empty
  | range (first last : Char)
  | word
  | digit
  | space
  | compl (s : CharSet)
  | union (s t : CharSet)
  | inter (s t : CharSet)
  /-- All characters equal, up to case, to a member. -/
  | folded (s : CharSet)
deriving DecidableEq, Repr

namespace CharSet

/-- Membership of a code point in a list of closed ranges. -/
def inRanges (ranges : List (Nat × Nat)) (c : Char) : Bool :=
  ranges.any fun (first, last) => first ≤ c.toNat && c.toNat ≤ last

/-- A character that words are made of. -/
def isWord (c : Char) : Bool := inRanges Text.wordRanges c

def mem : CharSet → Char → Bool
  | empty, _ => false
  | range first last, c => first ≤ c && c ≤ last
  | word, c => isWord c
  | digit, c => inRanges Text.digitRanges c
  | space, c => Text.isSpace c
  | compl s, c => !s.mem c
  | union s t, c => s.mem c || t.mem c
  | inter s t, c => s.mem c && t.mem c
  | folded s, c => (Text.caseVariants c).any s.mem

@[simp] theorem mem_empty (c : Char) : empty.mem c = false := rfl
@[simp] theorem mem_space (c : Char) : space.mem c = Text.isSpace c := rfl
@[simp] theorem mem_compl (s : CharSet) (c : Char) : s.compl.mem c = !s.mem c := rfl
@[simp] theorem mem_union (s t : CharSet) (c : Char) :
    (s.union t).mem c = (s.mem c || t.mem c) := rfl
@[simp] theorem mem_inter (s t : CharSet) (c : Char) :
    (s.inter t).mem c = (s.mem c && t.mem c) := rfl

def single (c : Char) : CharSet := range c c

@[simp] theorem mem_single (c d : Char) : (single c).mem d = (c == d) := by
  rw [Bool.eq_iff_iff]
  simp only [single, mem, Bool.and_eq_true, decide_eq_true_eq, beq_iff_eq]
  exact ⟨fun h => Char.le_antisymm h.1 h.2, fun h => h ▸ ⟨Char.le_refl c, Char.le_refl c⟩⟩

/-- Every character. -/
def all : CharSet := compl empty

@[simp] theorem mem_all (c : Char) : all.mem c = true := rfl

def diff (s t : CharSet) : CharSet := s.inter t.compl

def symmDiff (s t : CharSet) : CharSet := (s.diff t).union (t.diff s)

def ofRanges (ranges : List (Char × Char)) : CharSet :=
  ranges.foldr (fun (first, last) s => (range first last).union s) empty

end CharSet

end GrammarGraph
