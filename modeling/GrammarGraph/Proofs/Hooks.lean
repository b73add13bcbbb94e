import GrammarGraph.Proofs.Reach
import GrammarGraph.Sample

/-!
# Hooks that can be taken back

If the undo of every hook takes back what the hook did wherever the search ran it, then the path at
the head of the loop is always the one that its elements give when it is built from scratch.  The
condition can be checked along a run (`Parser.hooksRevert_of_revertsFrom`).
-/

namespace GrammarGraph

namespace Search

variable {g : Grammar} {s s' : Search} {token : Option Token} {graph : Graph}

theorem IsReplay.of_le (h : s.IsReplay g) (hle : s.graph ≤ graph)
    (hlt : ∀ e ∈ s.path.elements, e.node < s.graph.size) : IsReplay g { s with graph } := by
  rw [IsReplay, Path.replay_of_le hle hlt]
  exact h

theorem Arrives.isReplay (h : Arrives g token s s') (hs : s.Valid g) (hr : s.IsReplay g) :
    s'.IsReplay g := by
  induction h with
  | @taken s tip type ht he =>
    obtain ⟨rest, hels⟩ := exists_rest ht
    obtain ⟨hnone, -⟩ := isSlot_of_expected? ht he
    refine (hr.pop hels ?_).push _ token
    rw [hnone]
    exact Path.reverts_none _ _ _
  | complete ht he hsucc => exact hr.of_le (successors_le hsucc) hs.lt_size
  | step ht he hsucc _ _ _ ih =>
    refine ih (hs.push hsucc (List.mem_append_right _ List.mem_cons_self)) ?_
    exact (hr.of_le (successors_le hsucc) hs.lt_size).push _ none

end Search

theorem Run.Goes.isReplay {g : Grammar} {full : Bool} {r r' : Run} (h : Goes g full r r')
    (hs : r.search.Valid g) (hr : r.search.IsReplay g)
    (hrev : Path.Reversible r.search.graph g r.search.path.elements) : r'.search.IsReplay g := by
  cases h with
  | taken _ harrives => exact harrives.isReplay hs hr
  | retreated _ hback => exact (Search.backtrack_true hs.two_le hback).2.2 hr hrev

namespace Parser

variable {p : Parser} {text : List Char} {source : Option String} {r r' : Run}

/-- Whenever a hook ran on the way to the head of the loop, its undo takes back what it did to the
environment that it was given. -/
def HooksRevert (p : Parser) (text : List Char) (source : Option String) : Prop :=
  ∀ r, p.Reaches text source r → Path.Reversible r.search.graph p.grammar r.search.path.elements

theorem Reaches.isReplay (hooks : p.HooksRevert text source) (h : p.Reaches text source r) :
    r.search.IsReplay p.grammar := by
  refine h.induct (P := fun r => r.search.IsReplay p.grammar) (Search.isReplay_start p.grammar) ?_
  intro r t r' hr ih hf hgoes
  have hs := hr.valid
  have hrev := hooks r hr
  rw [← Run.search_fetch hf] at hs ih hrev
  exact hgoes.isReplay hs ih hrev

/-! ## Checking a run -/

/-- Whether the run ends within the bound and every hook that ran until then can be taken back. -/
def revertsFrom (p : Parser) (levels : Nat) : Nat → Run → Bool
  | 0, _ => false
  | fuel + 1, r =>
    decide (Path.Reversible r.search.graph p.grammar r.search.path.elements) &&
      match r.step p.grammar p.lexer p.fullBacktracking levels with
      | none => false
      | some (.goOn r) => revertsFrom p levels fuel r
      | some _ => true

theorem reversible_of_revertsFrom {levels : Nat} : ∀ {fuel : Nat} {r : Run},
    p.revertsFrom levels fuel r = true → Relation.ReflTransGen p.Next r r' →
      Path.Reversible r'.search.graph p.grammar r'.search.path.elements
  | 0, _, h, _ => absurd h (by simp [revertsFrom])
  | fuel + 1, r, h, hreaches => by
    rw [revertsFrom, Bool.and_eq_true, decide_eq_true_eq] at h
    rcases hreaches.cases_head with rfl | ⟨t, ⟨levels', hnext⟩, hrest⟩
    · exact h.1
    · cases hstep : r.step p.grammar p.lexer p.fullBacktracking levels with
      | none =>
        rw [hstep] at h
        exact absurd h.2 (by simp)
      | some o =>
        obtain rfl := Run.step_unique hstep hnext
        rw [hstep] at h
        exact reversible_of_revertsFrom h.2 hrest

/-- The condition on hooks follows from a check of the one run that there is. -/
theorem hooksRevert_of_revertsFrom (levels fuel : Nat)
    (h : p.revertsFrom levels fuel (p.start text source) = true) : p.HooksRevert text source :=
  fun _ hr => reversible_of_revertsFrom h hr

end Parser

namespace Sample.Commands

/-- Two alternatives that start with the hooked word and a command.  Where the second one is meant,
the search goes back into the command, behind its end, and over the hooked word. -/
def statement : Rule :=
  { script with
    expand := some fun _ =>
      .ofPiece (.fork [
        .sequence [.slot strict none (some setStrict), .rule 0, .token letWord],
        .sequence [.slot strict none (some setStrict), .rule 0, .token identifier]]) }

def twoStatements : Parser :=
  { Parser.ofGrammar { grammar with rules := [command, statement] } with fullBacktracking := true }

def twoStatementsText : List Char := "strict let x ; y".toList

/-- The undo of the hook gives the variable the value that it starts with, so it
can be taken back here. -/
theorem hooksRevert_twoStatements : twoStatements.HooksRevert twoStatementsText none :=
  Parser.hooksRevert_of_revertsFrom 100 100 (by decide +kernel)

end Sample.Commands

end GrammarGraph
