import GrammarGraph.Proofs.Termination
import GrammarGraph.Sample

/-!
# Full backtracking only adds parses

The two modes of backtracking take the same steps until a barrier stops the search, and a search
that a barrier stops fails.  So a search that succeeds with barriers succeeds without them, on the
same path (`Run.iterate_full`), and one that fails without barriers fails with them
(`Run.exists_error_iterate`).
-/

namespace GrammarGraph

namespace Search

variable {g : Grammar} {s s' : Search} {pending pending' : List Token} {removed : List PathElement}

/-- An alternative that is found in front of a barrier is found without barriers. -/
theorem backtrackFrom_full {fuel : Nat}
    (h : backtrackFrom g false fuel s pending removed = (true, s', pending')) :
    backtrackFrom g true fuel s pending removed = (true, s', pending') := by
  induction fuel generalizing s pending removed with
  | zero => exact absurd (Prod.mk.inj h).1 (by simp)
  | succ fuel ih =>
    rw [backtrackFrom] at h ⊢
    split at h
    · exact absurd (Prod.mk.inj h).1 (by simp)
    · next hlength =>
      rw [if_neg hlength]
      rcases hswitch : s.switchSibling g pending with ⟨_ | _, t, waiting⟩ <;> rw [hswitch] at h
      · simp only at h ⊢
        split at h
        · -- The barrier was met, and nothing was found.
          exact absurd (Prod.mk.inj h).1 (by simp)
        · rw [Bool.not_true, Bool.and_false, if_neg (by simp)]
          exact ih h
      · exact h

theorem backtrack_full (h : s.backtrack g false pending = (true, s', pending')) :
    s.backtrack g true pending = (true, s', pending') := backtrackFrom_full h

end Search

namespace Run

variable {g : Grammar} {lx : Lexer} {levels : Nat} {r r' : Run} {s : Search}

theorem retreat_full {e e' : ParseError} (h : retreat g false r e = .goOn r') :
    retreat g true r e' = .goOn r' := by
  unfold retreat at h ⊢
  rcases hback : r.search.backtrack g false r.pending with ⟨_ | _, t, pending⟩ <;> rw [hback] at h
  · exact absurd h (by simp)
  · rw [Search.backtrack_full hback]
    exact h

theorem retreat_ne_done (full : Bool) (r : Run) (e : ParseError) (s : Search) :
    retreat g full r e ≠ .done s := by
  unfold retreat
  split <;> simp

/-- An iteration with barriers that does not fail is one without barriers. -/
theorem step_full {o : Outcome} (h : r.step g lx false levels = some o) (ho : ∀ e, o ≠ .failed e) :
    r.step g lx true levels = some o := by
  cases hf : r.fetch lx with
  | error e =>
    rw [step, hf] at h
    exact absurd (Option.some.inj h).symm (ho e)
  | ok t =>
    obtain ⟨e, hbarred⟩ := step_eq g false hf
    obtain ⟨e', hfull⟩ := step_eq g true hf
    rw [hbarred] at h
    rw [hfull]
    rcases hdescend : t.search.descendFor g t.pending.head? levels with _ | ⟨_ | _, s⟩ <;>
      rw [hdescend] at h
    · exact h
    · simp only [Option.some.injEq] at h ⊢
      cases o with
      | done s' => exact absurd h (retreat_ne_done _ _ _ _)
      | failed e => exact absurd rfl (ho e)
      | goOn r' => exact retreat_full h
    · exact h

/-- An iteration without barriers fails with them, or does the same. -/
theorem exists_step_barred {o : Outcome} (h : r.step g lx true levels = some o) :
    ∃ o', r.step g lx false levels = some o' ∧ ((∃ e, o' = .failed e) ∨ o' = o) := by
  have hsome : ∃ o', r.step g lx false levels = some o' := by
    cases hf : r.fetch lx with
    | error e => exact ⟨.failed e, by rw [step, hf]⟩
    | ok t =>
      obtain ⟨e, hfull⟩ := step_eq g true hf
      obtain ⟨e', hbarred⟩ := step_eq g false hf
      rw [hfull] at h
      rw [hbarred]
      -- The two differ only in how they go on from a descent that fails.
      rcases hdescend : t.search.descendFor g t.pending.head? levels with _ | ⟨_ | _, s⟩ <;>
        rw [hdescend] at h
      · cases h
      · exact ⟨_, rfl⟩
      · exact ⟨_, h⟩
  obtain ⟨o', ho'⟩ := hsome
  refine ⟨o', ho', ?_⟩
  cases o' with
  | failed e => exact .inl ⟨e, rfl⟩
  | done s => exact .inr (Option.some.inj ((step_full ho' fun _ => by simp).symm.trans h))
  | goOn r' => exact .inr (Option.some.inj ((step_full ho' fun _ => by simp).symm.trans h))

/-- Where an iteration goes on with barriers it goes on like that without them. -/
theorem Goes.full {full : Bool} (h : Goes g full r r') : Goes g true r r' := by
  cases full with
  | true => exact h
  | false =>
    cases h with
    | taken hpending harrives => exact .taken hpending harrives
    | retreated hfails hback => exact .retreated hfails (Search.backtrack_full hback)

/-- A run with barriers that succeeds takes the same iterations without them, to the same end. -/
theorem iterate_full {fuel : Nat} (h : r.iterate g lx false levels fuel = some (.ok s)) :
    r.iterate g lx true levels fuel = some (.ok s) := by
  induction fuel generalizing r with
  | zero => exact absurd h (by simp [iterate])
  | succ fuel ih =>
    rw [iterate] at h ⊢
    cases hstep : r.step g lx false levels with
    | none =>
      rw [hstep] at h
      exact absurd h (by simp)
    | some o =>
      rw [hstep] at h
      cases o with
      | failed e => exact absurd h (by simp)
      | done s' =>
        rw [step_full hstep (by simp)]
        exact h
      | goOn r' =>
        rw [step_full hstep (by simp)]
        exact ih h

/-- A run without barriers that fails takes the same iterations with them, until it fails too. -/
theorem exists_error_iterate {fuel : Nat} {e : ParseError}
    (h : r.iterate g lx true levels fuel = some (.error e)) :
    ∃ e', r.iterate g lx false levels fuel = some (.error e') := by
  induction fuel generalizing r with
  | zero => cases h
  | succ fuel ih =>
    rw [iterate] at h ⊢
    cases hstep : r.step g lx true levels with
    | none =>
      rw [hstep] at h
      cases h
    | some o =>
      obtain ⟨o', hbarred, hcases⟩ := exists_step_barred hstep
      rw [hstep] at h
      rw [hbarred]
      rcases hcases with ⟨e', rfl⟩ | rfl
      · exact ⟨e', rfl⟩
      · cases o' with
        | failed e' => exact ⟨e', rfl⟩
        | done s => cases h
        | goOn r' => exact ih h

end Run

namespace Parser

variable {p : Parser} {text : List Char} {source : Option String} {fuel : Nat}

/-- The parser with the same grammar, lexer and kind of tree that goes back behind
completed rules, or does not. -/
def backtracking (p : Parser) (full : Bool) : Parser := { p with fullBacktracking := full }

theorem searchWithin_full {s : Search}
    (h : (p.backtracking false).searchWithin fuel text source = some (.ok s)) :
    (p.backtracking true).searchWithin fuel text source = some (.ok s) := Run.iterate_full h

theorem parseWithin_full {t : Tree}
    (h : (p.backtracking false).parseWithin fuel text source = some (.ok t)) :
    (p.backtracking true).parseWithin fuel text source = some (.ok t) := by
  obtain ⟨s, hsearch, rfl⟩ := exists_ok_of_map h
  rw [parseWithin, searchWithin_full hsearch]
  rfl

theorem derivationWithin_full {tokens : List Token}
    (h : (p.backtracking false).derivationWithin fuel text source = some (.ok tokens)) :
    (p.backtracking true).derivationWithin fuel text source = some (.ok tokens) := by
  obtain ⟨s, hsearch, rfl⟩ := exists_ok_of_map h
  rw [derivationWithin, searchWithin_full hsearch]
  rfl

/-- A text that is rejected without barriers is rejected with them. -/
theorem exists_error_of_full {e : ParseError}
    (h : (p.backtracking true).searchWithin fuel text source = some (.error e)) :
    ∃ bound e', ∀ fuel, bound ≤ fuel →
      (p.backtracking false).searchWithin fuel text source = some (.error e') := by
  obtain ⟨e', hrejected⟩ := Run.exists_error_iterate h
  exact ⟨fuel, e', fun _ hfuel => Run.iterate_mono hfuel hfuel hrejected⟩

/-- What is accepted with barriers is accepted without them within the same bound, with the same
path, derivation and tree.  What is rejected without barriers is rejected with them. -/
theorem full_adds_parses (p : Parser) (text : List Char) (source : Option String) :
    (∀ fuel s, (p.backtracking false).searchWithin fuel text source = some (.ok s) →
      (p.backtracking true).searchWithin fuel text source = some (.ok s)) ∧
    (∀ fuel tokens, (p.backtracking false).derivationWithin fuel text source = some (.ok tokens) →
      (p.backtracking true).derivationWithin fuel text source = some (.ok tokens)) ∧
    (∀ fuel t, (p.backtracking false).parseWithin fuel text source = some (.ok t) →
      (p.backtracking true).parseWithin fuel text source = some (.ok t)) ∧
    (∀ fuel e, (p.backtracking true).parseWithin fuel text source = some (.error e) →
      ∃ bound e', ∀ fuel, bound ≤ fuel →
        (p.backtracking false).parseWithin fuel text source = some (.error e')) := by
  refine ⟨fun _ _ => searchWithin_full, fun _ _ => derivationWithin_full,
    fun _ _ => parseWithin_full, ?_⟩
  intro fuel e h
  rw [parseWithin, Option.map_eq_some_iff] at h
  obtain ⟨_ | s, hsearch, htree⟩ := h
  · obtain ⟨bound, e', hrejected⟩ := exists_error_of_full hsearch
    refine ⟨bound, e', fun fuel hfuel => ?_⟩
    rw [parseWithin, hrejected fuel hfuel]
    rfl
  · exact absurd htree (by simp [Except.map])

/-- The first alternative is the one that is meant, so no barrier is met. -/
theorem full_adds_parses_boundary :
    ∃ t,
      ((ofGrammar Sample.Boundary.grammar).backtracking false).parseWithin 100
        "a b d".toList none = some (.ok t) ∧
      ((ofGrammar Sample.Boundary.grammar).backtracking true).parseWithin 100
        "a b d".toList none = some (.ok t) := by
  have hok : (((ofGrammar Sample.Boundary.grammar).backtracking false).parseWithin 100
      "a b d".toList none).any (·.toOption.any fun _ => true) = true := by decide +kernel
  obtain ⟨t, hparse, -⟩ := exists_ok_of_any hok
  exact ⟨t, hparse, (full_adds_parses _ _ _).2.2.1 100 t hparse⟩

/-- Where the second alternative is meant, the way to it leads back behind the end of a rule. -/
example :
    let p := ofGrammar Sample.Boundary.grammar
    ((p.backtracking false).parseWithin 100 "a b e".toList none).any (·.isOk) = false ∧
      ((p.backtracking true).parseWithin 100 "a b e".toList none).any (·.isOk) = true := by
  decide +kernel

end Parser

end GrammarGraph
