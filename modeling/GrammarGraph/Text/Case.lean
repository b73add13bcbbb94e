import GrammarGraph.Text.CaseTable

/-! # Upper case and equality up to case -/

namespace GrammarGraph.Text

/-- Whether a run covers the code point `n`. -/
def covers (n : Nat) : Nat × Nat × Nat × Nat → Bool
  | (first, last, step, _) => first ≤ n && n ≤ last && (n - first) % step == 0

/-- The code point that a table of runs assigns to `n`, if any. -/
def image? (runs : List (Nat × Nat × Nat × Nat)) (n : Nat) : Option Nat :=
  (runs.find? (covers n)).map fun (first, _, _, image) => image + (n - first)

/-- The upper-case form of a character, which may be several characters long. -/
def upperChar (c : Char) : List Char :=
  match image? upperRuns c.toNat with
  | some n => [Char.ofNat n]
  | none =>
    match upperExpansions.find? (·.1 == c.toNat) with
    | some (_, form) => form.map Char.ofNat
    | none => [c]

/-- Upper case, character by character. -/
def upper (s : String) : String :=
  String.ofList (s.toList.flatMap upperChar)

@[simp] theorem toList_upper (s : String) : (upper s).toList = s.toList.flatMap upperChar := by
  simp [upper]

/-- The smallest character equal to `c` up to case. -/
def foldChar (c : Char) : Char :=
  match image? foldRuns c.toNat with
  | some n => Char.ofNat n
  | none => c

/-- All characters equal to `c` up to case. -/
def caseVariants (c : Char) : List Char :=
  let least := (foldChar c).toNat
  foldChar c :: foldRuns.filterMap fun (first, last, step, image) =>
    let n := first + (least - image)
    if image ≤ least && covers n (first, last, step, image) then some (Char.ofNat n) else none

end GrammarGraph.Text
