import GrammarGraph.Definition.Meta
import Mathlib.Order.Basic

/-!
# What identifiers look like

A pattern for identifiers is a set for the first character and one for the others.  It accepts a
text exactly when each of its characters is in its set (`Pattern.accepts_identifier`).
-/

namespace GrammarGraph

namespace Regex

variable {α : Type} {k : Cursor → Groups → Option α}

theorem isSome_prefer (first : Bool) (a b : Unit → Option α) :
    (prefer first a b).isSome = ((a ()).isSome || (b ()).isSome) := by
  cases first <;> cases ha : a () <;> cases hb : b () <;> simp [prefer, ha, hb]

theorem run_set (s : CharSet) (pos : Nat) (last : Option Char) (c : Char) (cs : List Char)
    (gs : Groups) : run (.set s) ⟨pos, last, c :: cs⟩ gs k =
      if s.mem c then k ⟨pos + 1, some c, cs⟩ gs else none := by
  simp only [run, Cursor.step?]
  split <;> rfl

/-- The work that is left succeeds exactly at the end of the text. -/
def AtEnd (k : Cursor → Groups → Option α) : Prop := ∀ cur gs, (k cur gs).isSome = cur.rest.isEmpty

theorem isSome_again (hk : AtEnd k) (s : CharSet) : ∀ (fuel : Nat) (cur : Cursor) (gs : Groups),
    cur.rest.length ≤ fuel → (again (run (.set s)) true fuel cur gs k).isSome = cur.rest.all s.mem
  | 0, cur, gs, hfuel => by
    have hrest := List.length_eq_zero_iff.mp (Nat.le_zero.mp hfuel)
    rw [again, hk, hrest]
    rfl
  | fuel + 1, ⟨pos, last, []⟩, gs, _ => by
    rw [again, isSome_prefer, hk]
    exact Bool.or_true _
  | fuel + 1, ⟨pos, last, c :: cs⟩, gs, hfuel => by
    have hrest := isSome_again hk s fuel ⟨pos + 1, some c, cs⟩ gs (Nat.le_of_succ_le_succ hfuel)
    have hnow : (k ⟨pos, last, c :: cs⟩ gs).isSome = false := hk _ _
    simp only [again, isSome_prefer, hnow, List.all_cons, run_set, if_pos (Nat.lt_succ_self pos),
      Bool.or_false]
    cases s.mem c
    · rfl
    · exact hrest

/-- Any number of characters of a set reach the end of the text if all that are left are in it. -/
theorem isSome_star (hk : AtEnd k) (s : CharSet) (cur : Cursor) (gs : Groups) :
    (run (star true (.set s)) cur gs k).isSome = cur.rest.all s.mem := by
  rw [star, run, isSome_prefer, hk, run]
  obtain ⟨pos, last, _ | ⟨c, cs⟩⟩ := cur
  · exact Bool.or_true _
  · have hrest := isSome_again hk s cs.length ⟨pos + 1, some c, cs⟩ gs (Nat.le_refl _)
    rw [run_set, List.isEmpty_cons, Bool.or_false, List.all_cons]
    cases s.mem c
    · rfl
    · simpa only [if_true, if_pos (Nat.lt_succ_self pos), Bool.true_and] using hrest

end Regex

/-- Whether a text is a character that may come first and any number of
characters that may follow. -/
def isIdentifier (first next : Char → Bool) : List Char → Bool
  | [] => false
  | c :: cs => first c && cs.all next

namespace Pattern

/-- A character of the first set, and any number of the second. -/
def identifier (first next : CharSet) : Pattern :=
  ⟨.ofList [.look .textStart, .ofList [.set first, .star true (.set next)], .look .textEnd], 0⟩

/-- Further on in a text a pattern that is tied to its start matches nothing. -/
theorem findFrom_of_textStart {r : Regex} {groups : Nat} :
    ∀ (text : List Char) (pos : Nat) (c : Char),
    findFrom ⟨.seq (.look .textStart) r, groups⟩ pos (some c) text = none
  | [], _, _ => rfl
  | d :: ds, pos, c => by
    rw [findFrom, findFrom_of_textStart ds (pos + 1) d]
    rfl

theorem find_of_textStart (r : Regex) (groups : Nat) (text : List Char) :
    find ⟨.seq (.look .textStart) r, groups⟩ text =
      matchAt ⟨.seq (.look .textStart) r, groups⟩ ⟨0, none, text⟩ := by
  cases text with
  | nil => rfl
  | cons c cs =>
    rw [find, findFrom, findFrom_of_textStart]
    cases matchAt _ _ <;> rfl

theorem accepts_identifier (first next : CharSet) (text : List Char) :
    (identifier first next).accepts text = isIdentifier first.mem next.mem text := by
  have hend : Regex.AtEnd (α := Match) fun cur gs => Regex.run .empty cur gs fun cur gs =>
      Regex.run (.seq (.look .textEnd) .empty) cur gs fun cur' gs => some ⟨0, cur'.pos, gs⟩ := by
    rintro ⟨pos, last, _ | ⟨c, cs⟩⟩ gs <;> rfl
  rw [accepts, identifier, Regex.ofList, find_of_textStart]
  cases text with
  | nil => rfl
  | cons c cs =>
    have hstar := Regex.isSome_star hend next ⟨1, some c, cs⟩ []
    simp only [matchAt, Regex.ofList, Regex.run, Assertion.holds, Cursor.step?] at hstar ⊢
    rw [isIdentifier]
    cases hc : first.mem c <;> simp_all

end Pattern

namespace CharSet

theorem mem_upper (c : Char) : (range 'A' 'Z').mem c = c.isUpper := (Bool.decide_and _ _).symm

theorem mem_lower (c : Char) : (range 'a' 'z').mem c = c.isLower := rfl

theorem mem_digit (c : Char) : (range '0' '9').mem c = c.isDigit := rfl

theorem mem_underscore (c : Char) : (range '_' '_').mem c = ('_' == c) := mem_single '_' c

end CharSet

namespace Meta

/-! ## The names of a definition -/

/-- Upper-case letters, digits and underscores, no digit first. -/
def isTokenName (name : String) : Bool :=
  isIdentifier (fun c => c.isUpper || '_' == c)
    (fun c => c.isUpper || c.isDigit || '_' == c) name.toList

/-- Letters, digits and underscores, neither a digit nor an upper-case letter first. -/
def isRuleName (name : String) : Bool :=
  isIdentifier (fun c => c.isLower || '_' == c) (fun c => c.isLower || c.isUpper || c.isDigit ||
    '_' == c) name.toList

/-- Letters, digits and underscores, no digit first. -/
def isName (name : String) : Bool :=
  isIdentifier (fun c => c.isLower || c.isUpper || '_' == c)
    (fun c => c.isLower || c.isUpper || c.isDigit || '_' == c) name.toList

/-- Some ranges, one added after the other. -/
def ranges (list : List (Char × Char)) : CharSet :=
  list.foldl (fun s (first, last) => s.union (.range first last)) .empty

theorem mem_ranges (list : List (Char × Char)) (c : Char) :
    (ranges list).mem c = list.any fun (first, last) => (CharSet.range first last).mem c := by
  have hstart :
      ∀ s : CharSet, (list.foldl (fun s (first, last) => s.union (.range first last)) s).mem c =
      (s.mem c || list.any fun (first, last) => (CharSet.range first last).mem c) := by
    induction list with
    | nil => simp
    | cons range list ih => simp [ih, Bool.or_assoc]
  exact hstart .empty

theorem accepts_word {kind : TokenKind} {pattern : String} {isFirst isNext : Char → Bool}
    (first next : List (Char × Char))
    (hkind : kind = .word pattern (.identifier (ranges first) (ranges next)) fun _ => true)
    (hfirst : ∀ c, (ranges first).mem c = isFirst c) (hnext : ∀ c, (ranges next).mem c = isNext c)
    (word : String) : kind.accepts word.toList = isIdentifier isFirst isNext word.toList := by
  rw [hkind, TokenKind.accepts, Pattern.accepts_identifier, Bool.and_true, funext hfirst,
    funext hnext]

theorem accepts_tokenName (word : String) :
    tokenName.kind.accepts word.toList = isTokenName word := by
  refine accepts_word [('A', 'Z'), ('_', '_')] [('A', 'Z'), ('0', '9'), ('_', '_')] rfl
    ?_ ?_ word <;>
    simp [mem_ranges, CharSet.mem_upper, CharSet.mem_digit, CharSet.mem_underscore, Bool.or_assoc]

theorem accepts_ruleName (word : String) : ruleName.kind.accepts word.toList = isRuleName word := by
  refine accepts_word [('a', 'z'), ('_', '_')]
    [('a', 'z'), ('A', 'Z'), ('0', '9'), ('_', '_')] rfl ?_ ?_ word <;>
    simp [mem_ranges, CharSet.mem_lower, CharSet.mem_upper, CharSet.mem_digit,
      CharSet.mem_underscore, Bool.or_assoc]

theorem accepts_name (word : String) : name.kind.accepts word.toList = isName word := by
  refine accepts_word [('a', 'z'), ('A', 'Z'), ('_', '_')]
    [('a', 'z'), ('A', 'Z'), ('0', '9'), ('_', '_')] rfl ?_ ?_ word <;>
    simp [mem_ranges, CharSet.mem_lower, CharSet.mem_upper, CharSet.mem_digit,
      CharSet.mem_underscore, Bool.or_assoc]

end Meta

end GrammarGraph
