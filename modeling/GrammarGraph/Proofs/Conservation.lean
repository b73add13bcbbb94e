import GrammarGraph.Proofs.Reach
import GrammarGraph.Proofs.Tokens

/-!
# No token gets lost

Tokens move between the stream, the pending ones and the path, and keep their order on the way:
those on the path and then those pending are the ones that were pulled (`Parser.Reaches.pulls`).
-/

namespace GrammarGraph

namespace Path

/-- The tokens of elements, the tip first, in input order. -/
def tokensOf (els : List PathElement) : List Token := els.reverse.filterMap (·.token)

theorem tokens_eq (p : Path) : p.tokens = tokensOf p.elements := rfl

@[simp] theorem tokensOf_cons (e : PathElement) (els : List PathElement) :
    tokensOf (e :: els) = tokensOf els ++ e.token.toList := by
  rw [tokensOf, tokensOf, List.reverse_cons, List.filterMap_append, List.filterMap_cons,
    List.filterMap_nil]
  cases e.token <;> rfl

end Path

namespace Search

variable {g : Grammar} {full : Bool} {s s' : Search} {token : Option Token} {graph : Graph}
  {els els' : List PathElement} {pending pending' : List Token}

/-- A descent puts the token that it was made for on the path. -/
theorem Arrives.tokens_eq (h : Arrives g token s s') :
    s'.path.tokens = s.path.tokens ++ token.toList := by
  rw [Path.tokens_eq, Path.tokens_eq]
  induction h with
  | @taken s tip type ht he =>
    obtain ⟨rest, hels⟩ := exists_rest ht
    obtain ⟨hnone, -⟩ := isSlot_of_expected? ht he
    rw [elements_push, elements_pop, hels, List.tail_cons, Path.tokensOf_cons, Path.tokensOf_cons,
      hnone]
    simp
  | complete _ _ _ hend =>
    rw [Bool.and_eq_true, Option.isNone_iff_eq_none] at hend
    rw [hend.1]
    simp
  | step _ _ _ _ _ _ ih =>
    rw [ih, elements_push, Path.tokensOf_cons]
    simp

/-- Stepping back moves tokens from the end of the path to the front of the pending ones. -/
theorem Retreats.tokens_eq (h : Retreats graph full els pending els' pending') :
    Path.tokensOf els' ++ pending' = Path.tokensOf els ++ pending := by
  induction h with
  | switch => simp
  | back _ _ _ ih =>
    rw [ih]
    simp

end Search

namespace Run

variable {g : Grammar} {lx : Lexer} {full : Bool} {r r' : Run} {s : Stream}

/-- The tokens on the path and then the pending ones. -/
def tokens (r : Run) : List Token := r.search.path.tokens ++ r.pending

theorem Goes.tokens_eq (h : Goes g full r r') (hs : 2 ≤ r.search.graph.size) :
    r'.tokens = r.tokens := by
  rw [tokens, tokens]
  cases h with
  | taken hpending harrives =>
    rw [harrives.tokens_eq, hpending, List.append_assoc]
    rfl
  | retreated _ hback =>
    obtain ⟨-, hretreats, -⟩ := Search.backtrack_true hs hback
    exact hretreats.tokens_eq

theorem Goes.stream_eq (h : Goes g full r r') : r'.stream = r.stream := by
  cases h <;> rfl

/-- A token is read only if none is pending, and then follows all the others. -/
theorem pulls_fetch (h : s.Pulls lx r.tokens r.stream) (hf : r.fetch lx = .ok r') :
    s.Pulls lx r'.tokens r'.stream := by
  rcases fetch_ok hf with ⟨-, rfl⟩ | ⟨hp, o, stream, hnext, rfl⟩
  · exact h
  · rw [tokens, hp, List.append_nil] at h
    cases o with
    | none =>
      rw [tokens, Option.toList_none, List.append_nil]
      exact h.stop hnext
    | some t => exact h.token hnext

/-- While all that is ahead is tokens, a token can be read, and what is read comes off what is
ahead.  If none is pending then, none is ahead. -/
theorem exists_fetch_of_ahead {ahead : List Token} (hs : r.stream.Idle)
    (h : (r.stream.results lx).1 = ahead.map .ok) : ∃ t ahead', r.fetch lx = .ok t ∧
      (t.stream.results lx).1 = ahead'.map .ok ∧ t.pending ++ ahead' = r.pending ++ ahead ∧
      (t.pending = [] → ahead' = []) := by
  cases hf : r.fetch lx with
  | error e =>
    obtain ⟨stream, hnext⟩ := fetch_error hf
    rw [Stream.results_of_next_error hs hnext] at h
    cases ahead <;> exact absurd h (by simp)
  | ok t =>
    rcases fetch_ok hf with ⟨hp, rfl⟩ | ⟨hp, o, stream, hnext, rfl⟩
    · exact ⟨t, ahead, rfl, h, rfl, fun hnil => absurd hnil hp⟩
    · cases o with
      | none =>
        obtain ⟨-, hnow, hthen, -⟩ := Stream.results_of_next_none hs hnext
        obtain rfl : ahead = [] := by
          rw [hnow] at h
          exact List.map_eq_nil_iff.mp h.symm
        exact ⟨_, [], rfl, hthen, by rw [hp]; rfl, fun _ => rfl⟩
      | some token =>
        obtain ⟨-, hnow⟩ := Stream.results_of_next_some hs hnext
        rw [hnow] at h
        obtain ⟨token', ahead', rfl, htoken, hahead⟩ := List.map_eq_cons_iff.mp h.symm
        obtain rfl := Except.ok.inj htoken
        exact ⟨_, ahead', rfl, hahead.symm, by rw [hp]; rfl, fun hnil => absurd hnil (by simp)⟩

end Run

namespace Parser

variable {p : Parser} {text : List Char} {source : Option String} {r : Run}

theorem Reaches.pulls (h : p.Reaches text source r) :
    (p.lexer.stream text source).Pulls p.lexer r.tokens r.stream := by
  refine h.induct
    (P := fun r => (p.lexer.stream text source).Pulls p.lexer r.tokens r.stream) .refl ?_
  intro r t r' hr ih hf hgoes
  have hs := hr.valid.two_le
  rw [← Run.search_fetch hf] at hs
  rw [hgoes.tokens_eq hs, hgoes.stream_eq]
  exact Run.pulls_fetch ih hf

/-- A search that succeeds has pulled the tokens on its path, and has nothing left to read. -/
theorem pulls_of_searchWithin {fuel : Nat} {s : Search}
    (h : p.searchWithin fuel text source = some (.ok s)) :
    ∃ stream : Stream, (p.lexer.stream text source).Pulls p.lexer s.path.tokens stream ∧
      stream.pending = [] ∧ stream.window.rest = [] ∧ (stream.results p.lexer).1 = [] := by
  obtain ⟨r, hr, hstep⟩ := exists_done h
  obtain ⟨t, hf, hpending, harrives⟩ := Run.arrives_of_step hr.valid.two_le hstep
  have hpulls := Run.pulls_fetch hr.pulls hf
  rw [Run.tokens, hpending, List.append_nil] at hpulls
  have htokens := harrives.tokens_eq
  rw [Option.toList_none, List.append_nil] at htokens
  rw [htokens]
  refine ⟨t.stream, hpulls, ?_⟩
  rcases Run.fetch_ok hf with ⟨hne, rfl⟩ | ⟨-, o, stream, hnext, rfl⟩
  · exact absurd hpending hne
  · obtain rfl : o = none := by simpa using hpending
    have hidle := hr.pulls.idle (Stream.idle_stream p.lexer text source)
    obtain ⟨-, -, hresults, hwaiting, hrest⟩ := Stream.results_of_next_none hidle hnext
    exact ⟨hwaiting, hrest, hresults⟩

theorem tokenizeFrom_of_pulls {lx : Lexer} {tokens : List Token} {stream : Stream}
    (h : (lx.stream text source).Pulls lx tokens stream) (hend : (stream.results lx).1 = []) :
    lx.tokenizeFrom text source = .ok tokens := by
  rw [Lexer.tokenizeFrom, h.results_eq (Stream.idle_stream lx text source), hend, List.append_nil]
  exact mapM_id_eq_ok.mpr rfl

/-- In every iteration the tokens on the path and then the pending ones are those pulled from the
stream, in their order.  So the tokens of a path that was found are all the tokens of the text, and
nothing of the text is left to read. -/
theorem tokens_conserved (p : Parser) (text : List Char) (source : Option String) :
    (∀ r, p.Reaches text source r →
      (p.lexer.stream text source).Pulls p.lexer (r.search.path.tokens ++ r.pending) r.stream ∧
      ∀ t, r.fetch p.lexer = .ok t →
        (p.lexer.stream text source).Pulls p.lexer (t.search.path.tokens ++ t.pending) t.stream) ∧
    (∀ fuel tokens, p.derivationWithin fuel text source = some (.ok tokens) →
      p.lexer.tokenizeFrom text source = .ok tokens) ∧
    (∀ fuel s, p.searchWithin fuel text source = some (.ok s) →
      ∃ stream : Stream, (p.lexer.stream text source).Pulls p.lexer s.path.tokens stream ∧
        stream.pending = [] ∧ stream.window.rest = []) := by
  refine ⟨?_, ?_, ?_⟩
  · intro r hr
    exact ⟨hr.pulls, fun t hf => Run.pulls_fetch hr.pulls hf⟩
  · intro fuel tokens h
    rw [derivationWithin, Option.map_eq_some_iff] at h
    obtain ⟨result, hsearch, htokens⟩ := h
    cases result with
    | error e => exact absurd htokens (by simp [Except.map])
    | ok s =>
      obtain rfl : s.path.tokens = tokens := Except.ok.inj htokens
      obtain ⟨stream, hpulls, -, -, hend⟩ := pulls_of_searchWithin hsearch
      exact tokenizeFrom_of_pulls hpulls hend
  · intro fuel s h
    obtain ⟨stream, hpulls, hwaiting, hrest, -⟩ := pulls_of_searchWithin h
    exact ⟨stream, hpulls, hwaiting, hrest⟩

end Parser

end GrammarGraph
